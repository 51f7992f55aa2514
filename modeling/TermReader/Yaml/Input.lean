import TermReader.Data.Value

/-!
The text of a document under the cursor, with the line and the column of the
next character. Indentation is the meaning of a column, so both are kept while
characters are passed over.
-/

namespace TermReader.Yaml

/-- What is left of a document, and the values that were given names so far. -/
structure Input where
  rest : List Char
  line : Nat
  column : Nat
  named : List (String × Value)

/-- Reading part of a document; malformed text has no value. -/
abbrev Scan := StateT Input Option

def isBreak (c : Char) : Bool := c == '\n' || c == '\x85' || c == '\u2028' || c == '\u2029'

/-- Characters that end a word. A tab does, but it does not indent. -/
def isBlank (c : Char) : Bool := c == ' ' || c == '\t' || isBreak c

/-- Characters that may stand in a document. -/
def isAllowed (c : Char) : Bool :=
  c == '\t' || c == '\n' || c == '\x85' || (' ' ≤ c && c ≤ '~')
    || ('\u00a0' ≤ c && c != '\ufffe' && c != '\uffff')

/-- Whether the characters start with a blank, or are at their end. -/
def startsBlank (cs : List Char) : Bool := cs.head?.all isBlank

/-- Three marker characters that open or end a document. -/
def isMarker (mark : Char) (cs : List Char) : Bool :=
  cs.take 3 == [mark, mark, mark] && startsBlank (cs.drop 3)

namespace Input

def ofText (text : List Char) : Input := ⟨text, 1, 0, []⟩

/-- Passes over one character. -/
def advance (i : Input) : Input :=
  match i.rest with
  | [] => i
  | c :: rest =>
    if isBreak c then { i with rest, line := i.line + 1, column := 0 }
    else { i with rest, column := i.column + 1 }

/-- Whether a marker of a document or the end of the text comes next. -/
def atBoundary (i : Input) : Bool :=
  i.rest.isEmpty || (i.column == 0 && (isMarker '-' i.rest || isMarker '.' i.rest))

end Input

/-- Passes over spaces, comments and line breaks. -/
def gap (inComment : Bool) : List Char → Nat → Nat → List Char × Nat × Nat
  | [], line, column => ([], line, column)
  | c :: rest, line, column =>
    if isBreak c then gap false rest (line + 1) 0
    else if inComment then gap true rest line (column + 1)
    else if c == ' ' then gap false rest line (column + 1)
    else if c == '#' then gap true rest line (column + 1)
    else (c :: rest, line, column)

def malformed {α : Type} : Scan α := fun _ => none

def demand (condition : Bool) : Scan Unit := if condition then pure () else malformed

def peek : Scan (Option Char) := return (← get).rest.head?

def advance : Scan Unit := modify Input.advance

def skipGap : Scan Unit := modify fun i =>
  let (rest, line, column) := gap false i.rest i.line i.column
  { i with rest, line, column }

/-- Passes over the given number of characters and yields them. -/
def take (count : Nat) : Scan (List Char) := fun i =>
  some (i.rest.take count, count.repeat Input.advance i)

/-- Passes over the characters of a kind and yields them. -/
def takeAll (kind : Char → Bool) : Scan (List Char) := do
  take ((← get).rest.takeWhile kind).length

end TermReader.Yaml
