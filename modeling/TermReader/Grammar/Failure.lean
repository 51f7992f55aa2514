import TermReader.Token.Basic

/-!
Why reading fails. A rejection names the reason, the token at which it arose and
the position of that token; an integer numeral beyond the digit limit is a
failure of its own, because the expression as such may be well formed.
-/

namespace TermReader

inductive Reason
  | expectedParen
  | expectedBracket
  | expectedOpenBracket
  | expectedBrace
  | expectedAngle
  | expectedBar
  | expectedCall
  | wrongArgumentCount
  | unexpectedToken
  | unexpectedEnd
  | trailingTokens
  deriving DecidableEq

namespace Reason

/-- The name of a reason for programs. -/
def code : Reason → String
  | expectedParen => "EXPECTED_RPAREN"
  | expectedBracket => "EXPECTED_RBRACKET"
  | expectedOpenBracket => "EXPECTED_LBRACKET"
  | expectedBrace => "EXPECTED_RBRACE"
  | expectedAngle => "EXPECTED_RANGLE"
  | expectedBar => "EXPECTED_PIPE"
  | expectedCall => "EXPECTED_CALL"
  | wrongArgumentCount => "WRONG_ARGUMENT_COUNT"
  | unexpectedToken => "UNEXPECTED_TOKEN"
  | unexpectedEnd => "UNEXPECTED_END"
  | trailingTokens => "TRAILING_TOKENS"

/-- The wording of a reason for people. -/
def text : Reason → String
  | expectedParen => "expected \")\""
  | expectedBracket => "expected \"]\""
  | expectedOpenBracket => "expected \"[\""
  | expectedBrace => "expected \"\x7d\""
  | expectedAngle => "expected \">\""
  | expectedBar => "expected \"|\""
  | expectedCall => "expected \"(\" or a unary function"
  | wrongArgumentCount => "wrong number of arguments"
  | unexpectedToken => "unexpected token"
  | unexpectedEnd => "unexpected end of input"
  | trailingTokens => "unexpected trailing tokens"

end Reason

structure Rejection where
  reason : Reason
  token : Token
  position : Nat
  detail : Option String
  deriving DecidableEq

namespace Rejection

/-- The token stands in the message as it was typed. -/
def message (r : Rejection) : String :=
  r.reason.text ++ " at token " ++ toString r.position ++ ": '" ++ r.token ++ "'"
    ++ match r.detail with
      | some detail => " (" ++ detail ++ ")"
      | none => ""

end Rejection

inductive Failure
  | rejected (rejection : Rejection)
  | excessDigits (count : Nat)
  deriving DecidableEq

namespace Failure

def message : Failure → String
  | rejected r => r.message
  | excessDigits count =>
    "Exceeds the limit (" ++ toString Token.digitLimit
      ++ " digits) for integer string conversion: value has " ++ toString count
      ++ " digits; use sys.set_int_max_str_digits() to increase the limit"

end Failure

end TermReader
