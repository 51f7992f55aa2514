import TermReader.Number.Binary64

/-!
The shortest decimal that reads back as a given binary number. The decimals of
one length form a grid; the first grid with a point in the interval of values
that round to the number wins, and of two such points the nearer one, or the
even one of two equally near. Seventeen digits always suffice.
-/

namespace TermReader

/-- A decimal: a natural number times a power of ten. -/
structure Decimal where
  digits : Nat
  exponent : Int
  deriving DecidableEq

namespace Decimal

/-- The digits of a natural number, leading digit first. -/
def digitChars (n : Nat) : List Char := Nat.toDigits 10 n

/-- Moves the zeros at the end of the digits into the exponent. -/
def trim (d : Decimal) : Decimal :=
  let kept := (digitChars d.digits).reverse.dropWhile (· == '0')
  let zeros := (digitChars d.digits).length - kept.length
  ⟨d.digits / Nat.pow 10 zeros, d.exponent + zeros⟩

/-- A quotient measured in units of ten to the exponent, as a quotient. -/
def inUnits (num den : Nat) (exponent : Int) : Nat × Nat :=
  let scale := Nat.pow 10 exponent.natAbs
  if exponent < 0 then (num * scale, den) else (num, den * scale)

/-- The exponent of the leading decimal digit of a positive quotient. -/
def leadingExponent (num den : Nat) : Int :=
  if den ≤ num then (digitChars (num / den)).length - 1
  else
    let places := (List.range 400).find? fun k => den ≤ num * Nat.pow 10 k
    Int.negOfNat (places.getD 0)

end Decimal

namespace Binary64

/-- A positive finite number and the ends of the interval of values that round
to it, as numerators over one denominator; the interval may contain its ends. -/
structure Neighbourhood where
  low : Nat
  value : Nat
  high : Nat
  den : Nat
  closed : Bool

/-- Halfway points to both neighbours. Below a power of two the neighbour is
twice as near, save at the least exponent. A halfway point rounds to the number
when its significand is even. -/
def neighbourhood (significand : Nat) (exponent : Int) : Neighbourhood :=
  let below := if significand = Nat.pow 2 52 ∧ leastExponent < exponent then 1 else 2
  let power := Nat.pow 2 (exponent - 2).natAbs
  let scale := if exponent < 2 then 1 else power
  { low := (4 * significand - below) * scale
    value := 4 * significand * scale
    high := (4 * significand + 2) * scale
    den := if exponent < 2 then power else 1
    closed := significand % 2 == 0 }

namespace Neighbourhood

/-- Whether a decimal rounds to the number. -/
def contains (n : Neighbourhood) (d : Decimal) : Bool :=
  let (low, den) := Decimal.inUnits n.low n.den d.exponent
  let (high, _) := Decimal.inUnits n.high n.den d.exponent
  if n.closed then low ≤ d.digits * den && d.digits * den ≤ high
  else low < d.digits * den && d.digits * den < high

/-- The best decimal of the given number of digits, if one rounds to the number. -/
def decimal? (n : Neighbourhood) (leading : Int) (length : Nat) : Option Decimal :=
  let exponent := leading - length + 1
  let (num, den) := Decimal.inUnits n.value n.den exponent
  let below : Decimal := ⟨num / den, exponent⟩
  let above : Decimal := ⟨num / den + 1, exponent⟩
  match n.contains below, n.contains above with
  | true, true => some ⟨nearest num den, exponent⟩
  | true, false => some below
  | false, true => some above
  | false, false => none

end Neighbourhood

/-- The shortest decimal that rounds to a positive finite number. -/
def shortest (significand : Nat) (exponent : Int) : Decimal :=
  let n := neighbourhood significand exponent
  let leading := Decimal.leadingExponent n.value n.den
  let found := (List.range 17).findSome? fun k => n.decimal? leading (k + 1)
  (found.getD ⟨0, 0⟩).trim

/-- Numbers from a ten-thousandth up to ten to the sixteenth are written
positionally, always with a point and a digit on either side; all others with
one digit before the point and an exponent of at least two digits. -/
def render : Binary64 → String
  | infinity => "inf"
  | finite 0 _ => "0.0"
  | finite significand exponent =>
    let d := shortest significand exponent
    let digits := Decimal.digitChars d.digits
    let leading := d.exponent + digits.length - 1
    let chars :=
      if leading < -4 ∨ 16 ≤ leading then
        let places := Decimal.digitChars leading.natAbs
        digits.take 1 ++ (if digits.length = 1 then [] else '.' :: digits.drop 1)
          ++ ['e', if leading < 0 then '-' else '+']
          ++ (if places.length = 1 then '0' :: places else places)
      else if leading < 0 then
        ['0', '.'] ++ List.replicate (leading.natAbs - 1) '0' ++ digits
      else
        let whole := leading.natAbs + 1
        digits.take whole ++ List.replicate (whole - digits.length) '0' ++ ['.']
          ++ (if digits.length ≤ whole then ['0'] else digits.drop whole)
    String.ofList chars

end Binary64

end TermReader
