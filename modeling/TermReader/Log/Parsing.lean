import TermReader.Log.Record
import TermReader.Expression

/-!
The records of parsing an expression: the scan, every draw, the tokens that are
read, and a rejection. Texts from the expression stand in the messages quoted,
save for the token in the message of a rejection.
-/

namespace TermReader.Log

/-- A record of a stage of parsing. -/
def stage (source message : String) (fields : Field → Option Value) : Record :=
  ⟨Level.debug, source, message, fields, none⟩

def tokensValue (tokens : List Token) : Value := .list (tokens.map .text)

def scanRecord (source : String) (scanned : List Token) : Record :=
  stage "mathruntime.parser.tokenizer"
    ("Scanned " ++ Text.quoted source ++ " into " ++ toString scanned.length ++ " tokens")
    fun _ => none

def choiceRecord (c : Token.Choice) : Record :=
  stage "mathruntime.parser.postprocess"
    ("Resolved " ++ Text.quotedList c.alternatives.operators ++ " to '" ++ c.chosen ++ "'")
    fun _ => none

def readRecord (source : String) (tokens : List Token) : Record :=
  stage "mathruntime.parser.parser" ("Parsing tokens " ++ Text.quotedList tokens) fun
    | .expression => some (.text source)
    | .tokens => some (tokensValue tokens)
    | _ => none

def rejectionRecord (source : String) (r : Rejection) : Record :=
  stage "mathruntime.parser.parser" ("Failed to parse: " ++ r.message) fun
    | .expression => some (.text source)
    | .errorTag => some (.text r.reason.text)
    | .position => some (.int r.position)
    | _ => none

/-- The records of preparing an expression. -/
def preparedRecords (source : String) (p : Prepared) : List Record :=
  scanRecord source p.scanned :: p.choices.map choiceRecord

/-- The records of reading an expression; only a rejection leaves a record of its
own. -/
def readingRecords (source : String) (p : Prepared) (rejection? : Option Rejection) : List Record :=
  preparedRecords source p ++ [readRecord source p.tokens]
    ++ rejection?.toList.map (rejectionRecord source)

/-- The records of parsing an expression. -/
def parsedRecords {ρ σ τ : Type} (source : String) (parsed : Expression.Parsed ρ σ τ) :
    List Record :=
  readingRecords source parsed.prepared
    (match parsed.result with
      | .error (.rejected r) _ => some r
      | _ => none)

end TermReader.Log
