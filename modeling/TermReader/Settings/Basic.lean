import TermReader.Data.Value
import TermReader.Data.Fault
import TermReader.Number.Literal
import TermReader.Text.Blank

/-!
The settings of a reader and how their values are checked. A setting is given
as a text, from outside the program, or as a value by the program itself; texts
are read leniently, and every setting that cannot be read is a fault.
-/

namespace TermReader

inductive Setting
  | splitIdentifiers
  | randomSeed
  | contextFile
  | logLevel
  | logFormat
  deriving DecidableEq

namespace Setting

def all : List Setting := [splitIdentifiers, randomSeed, contextFile, logLevel, logFormat]

def label : Setting → String
  | splitIdentifiers => "SPLIT_IDENTIFIERS"
  | randomSeed => "RANDOM_SEED"
  | contextFile => "CONTEXT_FILE"
  | logLevel => "LOG_LEVEL"
  | logFormat => "LOG_FORMAT"

def fault (s : Setting) (kind : FaultKind) : Fault := ⟨[.field s.label], kind⟩

end Setting

structure Settings where
  splits : Bool := true
  seed : Option Int := none
  contextFile : Option String := none
  logLevel : String := "WARNING"
  logFormat : String := "text"
  deriving DecidableEq

namespace Settings

def trueWords : List String := ["1", "t", "true", "y", "yes", "on"]

def falseWords : List String := ["0", "f", "false", "n", "no", "off"]

/-- Words for truth values do not depend on case. -/
def truthWord? (text : String) : Option Bool :=
  let word := String.ofList (text.toList.map Char.toLower)
  if trueWords.contains word then some true
  else if falseWords.contains word then some false
  else none

/-- Digits with single bars between them. -/
def isBarred : List Char → Bool
  | [] => false
  | [c] => c.isDigit
  | '_' :: _ => false
  | c :: '_' :: rest => c.isDigit && isBarred rest
  | c :: rest => c.isDigit && isBarred rest

/-- A sign, digits, and perhaps a point with zeros after it. -/
def intWord? (cs : List Char) : Option Int :=
  let (negative, magnitude) :=
    match cs with
    | '-' :: rest => (true, rest)
    | '+' :: rest => (false, rest)
    | cs => (false, cs)
  let whole := magnitude.takeWhile (· != '.')
  let zeros := magnitude.dropWhile (· != '.')
  if isBarred whole && (zeros.isEmpty || (1 < zeros.length && zeros.tail.all (· == '0'))) then
    let value := Token.natValue (whole.filter (· != '_'))
    some (if negative then -value else value)
  else none

/-- The value of a binary number that is an integer. -/
def intOfReal? (negative : Bool) : Binary64 → Option Int
  | .infinity => none
  | .finite significand exponent =>
    let scale := Nat.pow 2 exponent.natAbs
    if exponent < 0 then
      if significand % scale = 0 then
        let n : Nat := significand / scale
        some (if negative then -n else n)
      else none
    else
      let n : Nat := significand * scale
      some (if negative then -n else n)

/-- Integers taken from binary numbers are words of 64 bits with a sign. -/
def isWord (n : Int) : Bool := n.natAbs < Nat.pow 2 63

def readTruth : Value → Except FaultKind Bool
  | .truth value => .ok value
  | .text text =>
    match truthWord? text with
    | some value => .ok value
    | none => .error .unreadableTruth
  | .int n => if n = 1 then .ok true else if n = 0 then .ok false
    else if isWord n then .error .unreadableTruth else .error .notTruth
  | .real negative x =>
    match intOfReal? negative x with
    | some n => if n = 1 then .ok true else if n = 0 then .ok false
      else if isWord n then .error .unreadableTruth else .error .notTruth
    | none => .error .notTruth
  | _ => .error .notTruth

def readInt : Value → Except FaultKind Int
  | .int n => .ok n
  | .truth value => .ok (if value then 1 else 0)
  | .text text =>
    let cs := Text.trim Text.isBlank text.toList
    match intWord? cs with
    | some n => if Token.digitLimit < cs.length then .error .oversizedInt else .ok n
    | none => .error .unreadableInt
  | .real negative x =>
    match intOfReal? negative x with
    | some n => if isWord n then .ok n else .error .oversizedInt
    | none => .error .fractionalInt
  | _ => .error .notInt

def readText : Value → Except FaultKind String
  | .text text => .ok text
  | _ => .error .notText

/-- A value that may also be absent. -/
def readOptional {α : Type} (read : Value → Except FaultKind α) :
    Value → Except FaultKind (Option α)
  | .null => .ok none
  | v => (read v).map some

/-- Sets one setting. -/
def assign (settings : Settings) (s : Setting) (v : Value) : Except FaultKind Settings :=
  match s with
  | .splitIdentifiers => (readTruth v).map fun splits => { settings with splits }
  | .randomSeed => (readOptional readInt v).map fun seed => { settings with seed }
  | .contextFile => (readOptional readText v).map fun contextFile => { settings with contextFile }
  | .logLevel => (readText v).map fun logLevel => { settings with logLevel }
  | .logFormat => (readText v).map fun logFormat => { settings with logFormat }

/-- Sets the settings that are given. Either all are set, or all faults are
reported. -/
def build (given : Setting → Option Value) : Except (List Fault) Settings :=
  let (settings, faults) := Setting.all.foldl
    (fun (settings, faults) s =>
      match given s with
      | none => (settings, faults)
      | some v =>
        match settings.assign s v with
        | .ok settings => (settings, faults)
        | .error kind => (settings, faults ++ [s.fault kind]))
    (({} : Settings), ([] : List Fault))
  if faults.isEmpty then .ok settings else .error faults

end Settings

end TermReader
