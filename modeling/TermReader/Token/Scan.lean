import TermReader.Token.Basic

/-!
Scanning an expression into tokens in one pass. Blanks separate, delimiters
stand alone or in pairs, and all other characters join the pending word.
Scanning never fails: whether a word means anything is settled later.
-/

namespace TermReader.Token

/-- Spaces, tabs and line feeds separate tokens and are dropped. -/
def isBlank (c : Char) : Bool := c == ' ' || c == '\t' || c == '\n'

def delimiters : List Char :=
  ['+', '-', '*', '/', '(', ')', '^', '{', '}', ',', '|', '[', ']', '<', '>', '=', '!', '&', '@']

def isDelimiter (c : Char) : Bool := delimiters.contains c

/-- Two delimiters that form one operator. -/
def isCompound (a b : Char) : Bool :=
  [('&', '&'), ('|', '|'), ('>', '='), ('<', '='), ('=', '='), ('!', '='), ('@', '@')].contains
    (a, b)

/-- The pending word as a token, unless it is empty; its characters are held
last first. -/
def flush (pending : List Char) : List (List Char) :=
  if pending.isEmpty then [] else [pending.reverse]

/-- Scans the characters after a pending word. -/
def scanFrom (pending : List Char) : List Char → List (List Char)
  | [] => flush pending
  | [a] =>
    if isBlank a then flush pending
    else if isDelimiter a then flush pending ++ [[a]]
    else flush (a :: pending)
  | a :: b :: rest =>
    if isBlank a then flush pending ++ scanFrom [] (b :: rest)
    else if isDelimiter a then
      if isCompound a b then flush pending ++ [a, b] :: scanFrom [] rest
      else flush pending ++ [a] :: scanFrom [] (b :: rest)
    else scanFrom (a :: pending) (b :: rest)

/-- The words of an expression, without the end mark. -/
def words (source : String) : List Token :=
  (scanFrom [] source.toList).map String.ofList

/-- The tokens of an expression, closed by the end mark. -/
def scan (source : String) : List Token := words source ++ [endMark]

end TermReader.Token
