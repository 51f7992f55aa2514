import TermReader.Number.Literal
import TermReader.Text.Digit

/-!
Texts converted to numbers. A conversion is partial: it refuses whatever is no
numeral, and an integer with too many digits.
-/

namespace TermReader

/-- Reads an unsigned decimal: digits, with at most one point in front of, behind or among them. -/
def Text.decimal? (text : String) : Option Binary64 :=
  let whole := text.toList.takeWhile isDigit
  let (fraction, rest) :=
    match text.toList.dropWhile isDigit with
    | '.' :: cs => (cs.takeWhile isDigit, cs.dropWhile isDigit)
    | cs => ([], cs)
  match (whole ++ fraction).mapM digit?, rest with
  | some (n :: ns), [] =>
    let value : Nat := (n :: ns).foldl (fun value n => 10 * value + n) 0
    some (Binary64.ofRatio value (Nat.pow 10 fraction.length))
  | _, _ => none

namespace Token

/-- The number that a numeral without a letter is converted to. Digits alone give an exact
number, if they are not more than the limit. -/
def number? (limit : Nat) (t : Token) : Option Number :=
  if t.isInteger then (Text.int? limit t).map fun n => .int n.toNat
  else (Text.decimal? t).map .real

/-- What is converted in a numeral: all but the letter of an imaginary one, which means one when
it stands alone. -/
def magnitude (t : Token) : Token :=
  if t.isImaginary then
    if t.toList.dropLast.isEmpty then "1" else String.ofList t.toList.dropLast
  else t

end Token

end TermReader
