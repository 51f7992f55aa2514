import TermReader.Yaml.Input

/-!
Quoted scalars and their folding. In both kinds of quotes a line break counts as
a space and further ones count as themselves; blanks around a break are dropped.
In single quotes a quote is written twice, in double quotes a backslash starts an
escape.
-/

namespace TermReader.Yaml

def isTabOrSpace (c : Char) : Bool := c == ' ' || c == '\t'

/-- The breaks after a first one, with the blanks around them; a marker of a
document may not stand among them. -/
def foldedBreaks : Nat → List Char → Scan (List Char)
  | 0, _ => malformed
  | fuel + 1, breaks => do
    demand (!(← get).atBoundary)
    let _ ← takeAll isTabOrSpace
    match ← peek with
    | some c =>
      if isBreak c then
        advance
        foldedBreaks fuel (breaks ++ [if c = '\x85' then '\n' else c])
      else return breaks
    | none => return breaks

/-- A stretch of blanks inside quotes. -/
def quotedBlanks : Scan (List Char) := do
  let blanks ← takeAll isTabOrSpace
  match ← peek with
  | none => malformed
  | some c =>
    if isBreak c then
      advance
      let breaks ← foldedBreaks ((← get).rest.length + 1) []
      if c != '\n' && c != '\x85' then return c :: breaks
      else if breaks.isEmpty then return [' ']
      else return breaks
    else return blanks

/-- The characters that a letter escapes to. -/
def letterEscapes : List (Char × Char) :=
  [('0', '\x00'), ('a', '\x07'), ('b', '\x08'), ('t', '\t'), ('\t', '\t'), ('n', '\n'),
    ('v', '\x0b'), ('f', '\x0c'), ('r', '\r'), ('e', '\x1b'), (' ', ' '), ('"', '"'),
    ('\\', '\\'), ('/', '/'), ('N', '\x85'), ('_', '\u00a0'), ('L', '\u2028'), ('P', '\u2029')]

/-- The widths of the escapes that give a code point. -/
def codeEscapes : List (Char × Nat) := [('x', 2), ('u', 4), ('U', 8)]

def hexValue? (cs : List Char) : Option Nat :=
  cs.foldl
    (fun value c => value.bind fun n =>
      if c.isDigit then some (16 * n + (c.toNat - '0'.toNat))
      else if 'a' ≤ c ∧ c ≤ 'f' then some (16 * n + (c.toNat - 'a'.toNat + 10))
      else if 'A' ≤ c ∧ c ≤ 'F' then some (16 * n + (c.toNat - 'A'.toNat + 10))
      else none)
    (some 0)

/-- What stands for a backslash and the character after it, which has been read. -/
def escape (letter : Char) : Scan (List Char) :=
  match letterEscapes.lookup letter with
  | some c => return [c]
  | none =>
    match codeEscapes.lookup letter with
    | some width => do
      let digits ← take width
      demand (digits.length == width)
      match hexValue? digits with
      | some n => if n < 0x110000 then return [Char.ofNat n] else malformed
      | none => malformed
    | none => do
      demand (isBreak letter)
      foldedBreaks ((← get).rest.length + 1) []

/-- The rest of a scalar in single quotes. -/
def singleQuoted : Nat → List Char → Scan (List Char)
  | 0, _ => malformed
  | fuel + 1, text => do
    let plain ← takeAll fun c => c != '\'' && !isBlank c
    let text := text ++ plain
    match ← peek with
    | none => malformed
    | some '\'' =>
      advance
      if (← peek) = some '\'' then
        advance
        singleQuoted fuel (text ++ ['\''])
      else return text
    | some _ => singleQuoted fuel (text ++ (← quotedBlanks))

/-- The rest of a scalar in double quotes. -/
def doubleQuoted : Nat → List Char → Scan (List Char)
  | 0, _ => malformed
  | fuel + 1, text => do
    let plain ← takeAll fun c => c != '"' && c != '\\' && !isBlank c
    let text := text ++ plain
    match ← peek with
    | none => malformed
    | some '"' =>
      advance
      return text
    | some '\\' =>
      advance
      match ← peek with
      | none => malformed
      | some letter =>
        advance
        doubleQuoted fuel (text ++ (← escape letter))
    | some _ => doubleQuoted fuel (text ++ (← quotedBlanks))

/-- A quoted scalar from its opening quote on. -/
def quotedScalar (quote : Char) : Scan (List Char) := do
  advance
  let fuel := (← get).rest.length + 1
  if quote = '\'' then singleQuoted fuel [] else doubleQuoted fuel []

end TermReader.Yaml
