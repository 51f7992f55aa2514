import TermReader.Token.Basic
import TermReader.Number.Binary64

/-!
The values of numerals. Integer numerals are exact natural numbers; real
numerals are rounded once to binary numbers. Integer numerals beyond a fixed
number of digits are not converted at all.
-/

namespace TermReader

/-- An exact natural number or a binary number. -/
inductive Number
  | int (value : Nat)
  | real (value : Binary64)
  deriving DecidableEq

namespace Number

/-- Equality of values, whatever their kinds. -/
def same : Number → Number → Bool
  | int m, int n => m == n
  | int m, real x => x.isNat m
  | real x, int n => x.isNat n
  | real x, real y => x == y

end Number

namespace Token

/-- The natural number that a row of digits denotes. -/
def natValue (digits : List Char) : Nat :=
  digits.foldl (fun value c => 10 * value + (c.toNat - '0'.toNat)) 0

/-- The number nearest to what a real numeral denotes. -/
def realValue (cs : List Char) : Binary64 :=
  let whole := cs.takeWhile (· != '.')
  let fraction := (cs.dropWhile (· != '.')).drop 1
  Binary64.ofRatio (natValue (whole ++ fraction)) (Nat.pow 10 fraction.length)

/-- The value of the numeral before the letter of an imaginary numeral; the
letter alone means one. -/
def imaginaryValue (body : List Char) : Number :=
  if body.isEmpty then .int 1
  else if integerChars body then .int (natValue body)
  else .real (realValue body)

/-- The number of digits of an integer numeral, or of an imaginary numeral
without a point, when it is beyond the limit. -/
def excessDigits? (t : Token) : Option Nat :=
  let cs := t.toList
  let digits := if imaginaryChars cs then cs.dropLast else cs
  if integerChars digits && digitLimit < digits.length then some digits.length else none

end Token

end TermReader
