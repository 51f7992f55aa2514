import TermReader.Text.Blank

/-!
Decimal digits of all scripts. Each script has a row of ten in order, so a row is
known by its zero. Integers in text may be written in the digits of any script.
-/

namespace TermReader.Text

/-- The zeros of the rows of decimal digits. -/
def zeros : List Nat :=
  [0x30, 0x660, 0x6f0, 0x7c0, 0x966, 0x9e6, 0xa66, 0xae6, 0xb66, 0xbe6, 0xc66, 0xce6, 0xd66, 0xde6,
    0xe50, 0xed0, 0xf20, 0x1040, 0x1090, 0x17e0, 0x1810, 0x1946, 0x19d0, 0x1a80, 0x1a90, 0x1b50,
    0x1bb0, 0x1c40, 0x1c50, 0xa620, 0xa8d0, 0xa900, 0xa9d0, 0xa9f0, 0xaa50, 0xabf0, 0xff10, 0x104a0,
    0x10d30, 0x11066, 0x110f0, 0x11136, 0x111d0, 0x112f0, 0x11450, 0x114d0, 0x11650, 0x116c0,
    0x11730, 0x118e0, 0x11950, 0x11c50, 0x11d50, 0x11da0, 0x16a60, 0x16ac0, 0x16b50, 0x1d7ce,
    0x1d7d8, 0x1d7e2, 0x1d7ec, 0x1d7f6, 0x1e140, 0x1e2f0, 0x1e950, 0x1fbf0]

/-- The value of a digit of any script. -/
def digit? (c : Char) : Option Nat :=
  (zeros.find? fun first => first ≤ c.toNat && c.toNat < first + 10).map (c.toNat - ·)

def isDigit (c : Char) : Bool := (digit? c).isSome

/-- The values of digits with single bars between them. -/
def barredDigits? : List Char → Option (List Nat)
  | [] => none
  | [c] => (digit? c).map ([·])
  | c :: d :: rest =>
    match digit? c with
    | none => none
    | some n =>
      if d = '_' then (barredDigits? rest).map (n :: ·)
      else (barredDigits? (d :: rest)).map (n :: ·)

/-- Reads an integer with a sign, blanks around it, and at most the given number
of digits. -/
def int? (limit : Nat) (text : String) : Option Int :=
  let cs := trim isBlank text.toList
  let (negative, magnitude) :=
    match cs with
    | '-' :: rest => (true, rest)
    | '+' :: rest => (false, rest)
    | cs => (false, cs)
  match barredDigits? magnitude with
  | none => none
  | some digits =>
    if limit < digits.length then none
    else
      let value : Nat := digits.foldl (fun value n => 10 * value + n) 0
      some (if negative then -value else value)

end TermReader.Text
