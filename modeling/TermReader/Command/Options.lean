import TermReader.Text.Digit
import TermReader.Text.Quoted
import TermReader.Number.Literal

/-!
The arguments of the command. Options start with a dash and may stand anywhere;
long ones may be cut short as long as one option alone fits, and a value may be
attached to them by an equals sign. One argument is the expression. After a
double dash every argument is a value.
-/

namespace TermReader.Command

inductive Switch
  | help
  | noSplit
  | seed
  | tokens
  | context
  | logLevel
  deriving DecidableEq

namespace Switch

def all : List Switch := [help, noSplit, seed, tokens, context, logLevel]

def spellings : Switch → List String
  | help => ["-h", "--help"]
  | noSplit => ["--no-split"]
  | seed => ["--seed"]
  | tokens => ["--tokens"]
  | context => ["--context"]
  | logLevel => ["--log-level"]

/-- Whether a value belongs to the option. -/
def takesValue : Switch → Bool
  | seed | context | logLevel => true
  | help | noSplit | tokens => false

def title (s : Switch) : String := "/".intercalate s.spellings

/-- All spellings with their options. -/
def table : List (String × Switch) :=
  all.flatMap fun s => s.spellings.map fun spelling => (spelling, s)

end Switch

/-- What is asked of the command. -/
structure Request where
  expression : Option String := none
  splits : Option Bool := none
  seed : Option Int := none
  tokens : Bool := false
  context : Option String := none
  logLevel : Option String := none
  deriving DecidableEq

/-- Why the command does not run: help was asked for, or the arguments are wrong. -/
inductive Usage
  | help
  | wrong (text : String)
  deriving DecidableEq

/-- The name of the command. -/
def programName : String := "mathruntime"

namespace Usage

/-- The last line that is printed; help ends without one. -/
def message : Usage → String
  | help => ""
  | wrong text => programName ++ ": error: " ++ text

def exit : Usage → Nat
  | help => 0
  | wrong _ => 2

/-- What is wrong with an option. -/
def about (s : Switch) (text : String) : Usage := wrong ("argument " ++ s.title ++ ": " ++ text)

def attachedValue (s : Switch) (value : String) : Usage :=
  about s ("ignored explicit argument " ++ Text.quoted value)

def missingValue (s : Switch) : Usage := about s "expected one argument"

def badInt (s : Switch) (value : String) : Usage :=
  about s ("invalid int value: " ++ Text.quoted value)

def missingExpression : Usage := wrong "the following arguments are required: expression"

def unknownArguments (args : List String) : Usage :=
  wrong ("unrecognized arguments: " ++ " ".intercalate args)

def ambiguous (arg : String) (matching : List String) : Usage :=
  wrong ("ambiguous option: " ++ arg ++ " could match " ++ ", ".intercalate matching)

end Usage

/-- An argument by its form alone. -/
inductive Argument
  | value (text : String)
  | doubleDash
  | option (switch : Switch) (attached : Option String)
  | letters (switch : Switch) (behind : List Char)
  | unknown (text : String)
  deriving DecidableEq

/-- A number with a minus sign, which is no option; a line feed may end it. -/
def isNegativeNumber (cs : List Char) : Bool :=
  match cs with
  | '-' :: rest =>
    let rest := if rest.getLast? = some '\n' then rest.dropLast else rest
    let whole := rest.takeWhile Text.isDigit
    match rest.drop whole.length with
    | [] => !whole.isEmpty
    | '.' :: fraction => !fraction.isEmpty && fraction.all Text.isDigit
    | _ => false
  | _ => false

/-- An argument cut at its first equals sign. -/
def cutAtEquals (arg : String) : String × Option String :=
  let cs := arg.toList
  let name := cs.takeWhile (· != '=')
  (String.ofList name,
    if name.length = cs.length then none else some (String.ofList (cs.drop (name.length + 1))))

/-- The long options that start as an argument does, with their spellings. -/
def shortened (name : String) : List (String × Switch) :=
  Switch.table.filter fun entry => name.toList.isPrefixOf entry.1.toList

def isLong (cs : List Char) : Bool := cs.take 2 == ['-', '-']

/-- Tells an argument before any double dash. Behind a single dash and the letter
of an option, more letters may follow. -/
def classify (arg : String) : Except Usage Argument :=
  let cs := arg.toList
  let (name, attached) := cutAtEquals arg
  if cs.head? ≠ some '-' ∨ cs = ['-'] then .ok (.value arg)
  else if isLong cs then
    match Switch.table.lookup arg with
    | some s => .ok (.option s none)
    | none =>
      match Switch.table.lookup name, shortened name with
      | some s, _ => .ok (.option s attached)
      | none, [(_, s)] => .ok (.option s attached)
      | none, _ :: _ :: _ => .error (.ambiguous arg ((shortened name).map (·.1)))
      | none, [] => .ok (if cs.contains ' ' then .value arg else .unknown arg)
  else
    match Switch.table.lookup arg, Switch.table.lookup name,
      Switch.table.lookup (String.ofList (cs.take 2)) with
    | some s, _, _ => .ok (.option s none)
    | none, some s, _ => .ok (.option s attached)
    | none, none, some s => .ok (.letters s (cs.drop 2))
    | none, none, none =>
      .ok (if isNegativeNumber cs || cs.contains ' ' then .value arg else .unknown arg)

/-- Tells all arguments; after a double dash all are values. -/
def classifyAll : List String → Except Usage (List Argument)
  | [] => .ok []
  | "--" :: rest => .ok (.doubleDash :: rest.map .value)
  | arg :: rest => do
    let a ← classify arg
    return a :: (← classifyAll rest)

/-- Sets an option that takes a value. -/
def Request.withValue (r : Request) (s : Switch) (value : String) : Except Usage Request :=
  match s with
  | .seed =>
    match Text.int? Token.digitLimit value with
    | some n => .ok { r with seed := some n }
    | none => .error (.badInt s value)
  | .context => .ok { r with context := some value }
  | .logLevel => .ok { r with logLevel := some value }
  | _ => .ok r

/-- Sets an option that takes no value; none may be attached to it. -/
def Request.withFlag (r : Request) (s : Switch) (attached : Option String) : Except Usage Request :=
  match attached, s with
  | some value, _ => .error (.attachedValue s value)
  | none, .help => .error .help
  | none, .noSplit => .ok { r with splits := some false }
  | none, .tokens => .ok { r with tokens := true }
  | none, _ => .ok r

/-- Letters behind a single dash and the letter of an option are options too. The
only option of one letter asks for help, which is given before the next letter
is looked at, save for signs that no option can start with. -/
def lettersUsage (s : Switch) : List Char → Usage
  | 'h' :: '=' :: value => .attachedValue s (String.ofList value)
  | 'h' :: behind => if behind.isEmpty then .help else lettersUsage s behind
  | '-' :: behind => .attachedValue s (String.ofList ('-' :: behind))
  | _ => .help

/-- Takes the arguments in order and keeps those that are left over. A double
dash goes with the expression that it stands next to. -/
def collect (r : Request) (extra : List String) :
    List Argument → Except Usage (Request × List String)
  | [] => .ok (r, extra)
  | .option s attached :: rest =>
    if s.takesValue then
      match attached, rest with
      | some value, rest => do collect (← r.withValue s value) extra rest
      | none, .value value :: rest => do collect (← r.withValue s value) extra rest
      | none, _ => .error (.missingValue s)
    else do collect (← r.withFlag s attached) extra rest
  | .letters s behind :: _ => .error (lettersUsage s behind)
  | .unknown text :: rest => collect r (extra ++ [text]) rest
  | .value text :: .doubleDash :: rest =>
    if r.expression.isNone then collect { r with expression := some text } extra rest
    else collect r (extra ++ [text, "--"]) rest
  | .value text :: rest =>
    if r.expression.isNone then collect { r with expression := some text } extra rest
    else collect r (extra ++ [text]) rest
  | .doubleDash :: .value text :: rest =>
    if r.expression.isNone then collect { r with expression := some text } extra rest
    else collect r (extra ++ ["--", text]) rest
  | .doubleDash :: rest => collect r (extra ++ ["--"]) rest

/-- The request and its expression. A missing expression is reported before
arguments that are left over. -/
def request (args : List String) : Except Usage (String × Request) := do
  let classified ← classifyAll args
  let (r, extra) ← collect {} [] classified
  match r.expression with
  | none => throw .missingExpression
  | some expression =>
    if extra.isEmpty then return (expression, r) else throw (.unknownArguments extra)

end TermReader.Command
