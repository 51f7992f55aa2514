/-!
Tokens are plain words over Unicode. What a token may stand for is decided by
its spelling alone: identifiers and the three kinds of unsigned numerals are
recognised by predicates on the word, all of them over ASCII letters, digits
and the underscore.
-/

namespace TermReader

/-- A word produced by scanning an expression. -/
abbrev Token := String

namespace Token

/-- The token that closes every token stream. -/
def endMark : Token := "§"

/-- Letters of identifiers: the ASCII letters and the underscore. -/
def isLetter (c : Char) : Bool := c.isAlpha || c == '_'

/-- The digits that may open a numeral of several digits. -/
def isLeadingDigit (c : Char) : Bool := c.isDigit && c != '0'

/-- A letter followed by letters and digits. -/
def identifierChars : List Char → Bool
  | [] => false
  | c :: cs => isLetter c && cs.all fun d => isLetter d || d.isDigit

/-- Zero, or digits of which the first is not zero. -/
def integerChars : List Char → Bool
  | [] => false
  | c :: cs => (c == '0' && cs.isEmpty) || (isLeadingDigit c && cs.all Char.isDigit)

/-- An integer numeral, a point, and any digits. -/
def realChars (cs : List Char) : Bool :=
  match cs.dropWhile (· != '.') with
  | [] => false
  | _ :: fraction => integerChars (cs.takeWhile (· != '.')) && fraction.all Char.isDigit

/-- A real or integer numeral, possibly absent, before a final letter i. -/
def imaginaryChars (cs : List Char) : Bool :=
  cs.getLast? == some 'i' &&
    (cs.dropLast.isEmpty || realChars cs.dropLast || integerChars cs.dropLast)

def isIdentifier (t : Token) : Bool := identifierChars t.toList

def isInteger (t : Token) : Bool := integerChars t.toList

def isReal (t : Token) : Bool := realChars t.toList

def isImaginary (t : Token) : Bool := imaginaryChars t.toList

/-- The greatest number of digits that an integer numeral may have. -/
def digitLimit : Nat := 4300

/-- Whether the token is a single character of the given kind. -/
def isSingle (kind : Char → Bool) (t : Token) : Bool :=
  match t.toList with
  | [c] => kind c
  | _ => false

end Token

end TermReader
