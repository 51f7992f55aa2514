import TermReader.Main
import TermReader.Proofs.BuilderIndependence
import TermReader.Proofs.Reads
import TermReader.Proofs.Yields
import TermReader.Proofs.Inversion
import TermReader.Proofs.Execution
import TermReader.Proofs.Openings
import TermReader.Proofs.Derivation
import TermReader.Proofs.Tails
import TermReader.Proofs.Completeness
import TermReader.Proofs.Layout
import TermReader.Proofs.WellFormed
import TermReader.Proofs.Spelling
import TermReader.Proofs.Rendering
import TermReader.Proofs.Readable
import TermReader.Proofs.ReadBack
import TermReader.Proofs.Scanning
import TermReader.Proofs.RoundTrip
import TermReader.Proofs.Splitting
import TermReader.Proofs.Juxtaposition
import TermReader.Proofs.LeafOrder
import TermReader.Proofs.Equations
import TermReader.Proofs.Lookahead
import TermReader.Proofs.EndMark
import TermReader.Proofs.ContextDependence
import TermReader.Proofs.History
import TermReader.Proofs.Renaming
import TermReader.Proofs.Pieces
import TermReader.Proofs.Separation
import TermReader.Proofs.SplitAcceptance
import TermReader.Proofs.Surroundings
import TermReader.Proofs.Exponents
import TermReader.Proofs.CallCounts
import TermReader.Proofs.Evaluation
import TermReader.Proofs.SignedProducts
import TermReader.Proofs.AbsoluteValue
import TermReader.Proofs.Groups
import TermReader.Proofs.Rejections
import TermReader.Proofs.ChainValues
import TermReader.Proofs.Comparisons
import TermReader.Proofs.Lexemes
import TermReader.Proofs.Brackets
import TermReader.Proofs.Lossless
import TermReader.Proofs.Extension
import TermReader.Proofs.SingleUse
import TermReader.Proofs.Begins
import TermReader.Proofs.Numerals
import TermReader.Proofs.Nesting
import TermReader.Proofs.OneLine
import TermReader.Proofs.LogLines
import TermReader.Proofs.Epochs
import TermReader.Proofs.Overrides
import TermReader.Proofs.Answers
import TermReader.Proofs.Termination
import TermReader.Proofs.TokenClasses
import TermReader.Grammar.Descent
