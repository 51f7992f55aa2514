import TermReader.Token.Scan
import TermReader.Token.Split
import TermReader.Token.Alternatives
import TermReader.Grammar.Reader

/-!
From an expression to what a builder makes of it: the expression is scanned, its
tokens are split if that is wanted, groups of alternatives are resolved, and the
resulting token stream is read.
-/

namespace TermReader

/-- The token streams of an expression: as scanned, and as read, with the draws
that were made in between. -/
structure Prepared where
  scanned : List Token
  tokens : List Token
  choices : List Token.Choice
  deriving DecidableEq

namespace Expression

variable {ρ σ τ : Type}

/-- The processed tokens of an expression, and the state of the random source
after one draw for every group. -/
def prepare (ctx : Context) (splits : Bool) (chooser : Chooser ρ) (source : String) (random : ρ) :
    Prepared × ρ :=
  let scanned := Token.scan source
  let (resolution, random) :=
    Token.resolve chooser (if splits then Token.split ctx scanned else scanned) random
  (⟨scanned, resolution.tokens, resolution.choices⟩, random)

/-- The outcome of reading one expression. -/
structure Parsed (ρ σ τ : Type) where
  prepared : Prepared
  random : ρ
  result : EStateM.Result Failure σ τ

def parse (ctx : Context) (b : Builder σ τ) (splits : Bool) (chooser : Chooser ρ) (source : String)
    (random : ρ) (state : σ) : Parsed ρ σ τ :=
  let (prepared, random) := prepare ctx splits chooser source random
  ⟨prepared, random, Grammar.read ctx b prepared.tokens state⟩

end Expression

end TermReader
