import TermReader.Settings.Environment
import TermReader.Data.Files
import TermReader.Text.Lines

/-!
A file of variables sets one on each line: a name, an equals sign, a value. A
value in quotes may go on over several lines. Lines of any other form are
passed over.
-/

namespace TermReader.VariableFile

def isLineBlank (c : Char) : Bool := Text.isBlank c && c != '\n'

/-- A value without quotes ends before blanks and a hash sign. -/
def dropComment : List Char → List Char
  | [] => []
  | c :: rest =>
    if isLineBlank c && (rest.dropWhile isLineBlank).head? == some '#' then []
    else c :: dropComment rest

/-- The characters up to the closing quote, and what follows it. A quote after a
backslash closes only when no other one does. -/
def quotedRun (quote : Char) : List Char → Option (List Char × List Char)
  | [] => none
  | [c] => if c = quote then some ([], []) else none
  | c :: d :: rest =>
    if c = quote then some ([], d :: rest)
    else if c = '\\' ∧ d = quote then
      match quotedRun quote rest with
      | some (value, after) => some (c :: d :: value, after)
      | none => some ([c], rest)
    else (quotedRun quote (d :: rest)).map fun (value, after) => (c :: value, after)

/-- The escapes of a value in double quotes. -/
def doubleEscapes : List (Char × Char) :=
  [('\\', '\\'), ('\'', '\''), ('"', '"'), ('a', '\x07'), ('b', '\x08'), ('f', '\x0c'),
    ('n', '\n'), ('r', '\r'), ('t', '\t'), ('v', '\x0b')]

def singleEscapes : List (Char × Char) := [('\\', '\\'), ('\'', '\'')]

def unescape (escapes : List (Char × Char)) : List Char → List Char
  | [] => []
  | [c] => [c]
  | c :: d :: rest =>
    match if c = '\\' then escapes.lookup d else none with
    | some e => e :: unescape escapes rest
    | none => c :: unescape escapes (d :: rest)

def restOfLine (cs : List Char) : List Char := cs.dropWhile (· != '\n')

/-- Whether nothing or only a comment is left of the line. -/
def atLineEnd (cs : List Char) : Bool :=
  match cs.dropWhile isLineBlank with
  | [] => true
  | c :: _ => c == '\n' || c == '#'

/-- A value, unless it is malformed, and what follows it. -/
def value (cs : List Char) : Option (List Char) × List Char :=
  let quote := cs.headD ' '
  if quote = '"' ∨ quote = '\'' then
    match quotedRun quote cs.tail with
    | some (run, after) =>
      let escapes := if quote = '"' then doubleEscapes else singleEscapes
      (if atLineEnd after then some (unescape escapes run) else none, after)
    | none => (none, cs)
  else
    let line := cs.takeWhile (· != '\n')
    (some (Text.trim isLineBlank (dropComment line)), cs.drop line.length)

/-- A line may start with the word export. -/
def dropExport (cs : List Char) : List Char :=
  let rest := cs.drop 6
  if cs.take 6 == "export".toList && rest.head?.any isLineBlank then rest.dropWhile isLineBlank
  else cs

/-- A name, which may stand in single quotes, and what follows it. -/
def name (cs : List Char) : List Char × List Char :=
  if cs.head? = some '\'' then
    let run := cs.tail.takeWhile (· != '\'')
    (run, (cs.drop (run.length + 2)).dropWhile isLineBlank)
  else
    let run := cs.takeWhile fun c => c != '=' && c != '#' && !Text.isBlank c
    (run, (cs.drop run.length).dropWhile isLineBlank)

/-- The variable on the line that starts here, and what follows it. -/
def binding (cs : List Char) : Option (String × String) × List Char :=
  let (run, rest) := name (dropExport cs)
  if run.isEmpty then (none, rest)
  else if rest.head? = some '=' then
    let (found, after) := value (rest.tail.dropWhile isLineBlank)
    (found.map fun text => (String.ofList run, String.ofList text), after)
  else (none, rest)

/-- The variables on at most the given number of lines. -/
def bindings : Nat → List Char → List (String × String)
  | 0, _ => []
  | fuel + 1, cs =>
    let cs := cs.dropWhile Text.isBlank
    if cs.isEmpty then []
    else
      let (found, after) := binding cs
      found.toList ++ bindings fuel (restOfLine after)

def parse (text : String) : Variables :=
  Entries.ofList (bindings (text.length + 1) text.toList)

/-- The name of the file of variables. -/
def path : String := ".env"

/-- The variables that a file sets; without a file there are none. -/
def load (files : Files) : Variables :=
  match files path with
  | .contents bytes => ((Text.ofBytes? bytes).map parse).getD []
  | _ => []

end TermReader.VariableFile
