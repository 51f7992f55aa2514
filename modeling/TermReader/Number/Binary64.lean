/-!
Unsigned numbers of the 64-bit binary format, held exactly as a significand
below two to the 53 and a power of two, or infinity. A quotient of natural
numbers is rounded to the nearest such number, with ties to the even
significand, so a decimal literal is rounded once and from its exact value.
-/

namespace TermReader

/-- A finite value is the significand times two to the exponent. The exponent
is least where the significand has fewer than 53 bits, so that equal values are
equal as data. -/
inductive Binary64
  | finite (significand : Nat) (exponent : Int)
  | infinity
  deriving DecidableEq

namespace Binary64

def leastExponent : Int := -1074

/-- The greatest exponent of a finite number. -/
def greatestExponent : Int := 971

def zero : Binary64 := finite 0 leastExponent

/-- The natural number nearest to a quotient; a half goes to the even one. -/
def nearest (num den : Nat) : Nat :=
  let quotient := num / den
  let rest := num % den
  if 2 * rest < den then quotient
  else if den < 2 * rest then quotient + 1
  else quotient + quotient % 2

/-- A quotient measured in units of two to the exponent, as a quotient. -/
def inUnits (num den : Nat) (exponent : Int) : Nat × Nat :=
  let scale := Nat.pow 2 exponent.natAbs
  if exponent < 0 then (num * scale, den) else (num, den * scale)

/-- The exponent of the leading binary digit of a positive quotient. -/
def leadingExponent (num den : Nat) : Int :=
  let guess : Int := num.log2 - den.log2
  let (num, den) := inUnits num den guess
  if den ≤ num then guess else guess - 1

/-- The number nearest to a quotient. -/
def ofRatio (num den : Nat) : Binary64 :=
  if num = 0 then zero
  else
    let exponent := max (leadingExponent num den - 52) leastExponent
    let (num, den) := inUnits num den exponent
    let significand := nearest num den
    let (significand, exponent) :=
      if significand = Nat.pow 2 53 then (Nat.pow 2 52, exponent + 1) else (significand, exponent)
    if greatestExponent < exponent then infinity else finite significand exponent

/-- Whether the value is the given natural number. -/
def isNat (n : Nat) : Binary64 → Bool
  | finite significand exponent =>
    let scale := Nat.pow 2 exponent.natAbs
    if exponent < 0 then significand == n * scale else n == significand * scale
  | infinity => false

end Binary64

end TermReader
