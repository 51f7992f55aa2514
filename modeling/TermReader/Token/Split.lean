import TermReader.Context.Basic

/-!
Splitting tokens that juxtapose factors. An identifier of several letters that
no context knows falls apart into its characters, and digits in front of
letters separate from them. Every other token is kept.
-/

namespace TermReader.Token

def isTruthValue (t : Token) : Bool := t == "true" || t == "false"

/-- An identifier that names nothing known. -/
def isUnknownName (ctx : Context) (t : Token) : Bool :=
  !isTruthValue t && isIdentifier t && !ctx.isFunction t && !ctx.isConstant t

/-- Digits at the front and a letter at the end. -/
def isCoefficientWord (cs : List Char) : Bool :=
  cs.head?.any Char.isDigit && cs.getLast?.any isLetter

/-- The pieces of one token. -/
def pieces (ctx : Context) (t : Token) : List Token :=
  if isUnknownName ctx t then t.toList.map fun c => String.ofList [c]
  else if isCoefficientWord t.toList then
    [String.ofList (t.toList.takeWhile Char.isDigit),
      String.ofList (t.toList.dropWhile Char.isDigit)]
  else [t]

/-- Replaces every token by its pieces. -/
def split (ctx : Context) (tokens : List Token) : List Token := tokens.flatMap (pieces ctx)

end TermReader.Token
