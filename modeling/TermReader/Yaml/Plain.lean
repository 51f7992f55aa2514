import TermReader.Token.Basic
import TermReader.Number.Literal
import TermReader.Data.Value

/-!
What a plain scalar stands for. A few words are truth values or null, words in
the form of a number or of a date are such, and all others are texts.
-/

namespace TermReader.Yaml

def nullWords : List String := ["", "~", "null", "Null", "NULL"]

def trueWords : List String :=
  ["yes", "Yes", "YES", "true", "True", "TRUE", "on", "On", "ON"]

def falseWords : List String :=
  ["no", "No", "NO", "false", "False", "FALSE", "off", "Off", "OFF"]

/-- Words that stand for infinity after an optional sign, and for no number. -/
def infinityWords : List String := [".inf", ".Inf", ".INF"]

def notANumberWords : List String := [".nan", ".NaN", ".NAN"]

/-- Reserved words that stand for no value. -/
def reservedWords : List String := ["=", "<<"]

/-- Splits a sign off. -/
def unsigned : List Char → Bool × List Char
  | '-' :: rest => (true, rest)
  | '+' :: rest => (false, rest)
  | cs => (false, cs)

def isDigitOrBar (c : Char) : Bool := c.isDigit || c == '_'

/-- The number that digits denote in a base; bars between digits do not count. -/
def baseValue (base : Nat) (digits : List Char) : Nat :=
  (digits.filter (· != '_')).foldl
    (fun value c =>
      let digit :=
        if c.isDigit then c.toNat - '0'.toNat
        else if c.isUpper then c.toNat - 'A'.toNat + 10
        else c.toNat - 'a'.toNat + 10
      base * value + digit)
    0

def isHexDigit (c : Char) : Bool :=
  c.isDigit || ('a' ≤ c && c ≤ 'f') || ('A' ≤ c && c ≤ 'F') || c == '_'

/-- One or two digits below sixty. -/
def isSixtieth : List Char → Bool
  | [c] => c.isDigit
  | [c, d] => '0' ≤ c && c ≤ '5' && d.isDigit
  | _ => false

/-- Cuts at every colon. -/
def colonParts (cs : List Char) : List (List Char) :=
  cs.foldr
    (fun c parts =>
      match parts with
      | part :: others => if c = ':' then [] :: part :: others else (c :: part) :: others
      | [] => if c = ':' then [[], []] else [[c]])
    [[]]

/-- The number that an unsigned integer word denotes: binary, octal and
hexadecimal after their marks, decimal, or counted in sixties. -/
def natWord? (cs : List Char) : Option Nat :=
  match cs with
  | ['0'] => some 0
  | '0' :: 'b' :: digits =>
    if !digits.isEmpty && digits.all (fun c => c == '0' || c == '1' || c == '_') then
      some (baseValue 2 digits)
    else none
  | '0' :: 'x' :: digits =>
    if !digits.isEmpty && digits.all isHexDigit then some (baseValue 16 digits) else none
  | '0' :: digits =>
    if digits.all (fun c => ('0' ≤ c && c ≤ '7') || c == '_') then some (baseValue 8 digits)
    else none
  | c :: _ =>
    if !c.isDigit then none
    else
      match colonParts cs with
      | [digits] => if digits.all isDigitOrBar then some (baseValue 10 digits) else none
      | first :: later =>
        if first.all isDigitOrBar && later.all isSixtieth then
          some ((first :: later).foldl (fun value part => 60 * value + baseValue 10 part) 0)
        else none
      | [] => none
  | [] => none

/-- The decimal exponent after its mark; the sign is required. -/
def exponent? : List Char → Option Int
  | [] => some 0
  | 'e' :: sign :: digits | 'E' :: sign :: digits =>
    if !digits.isEmpty && digits.all Char.isDigit then
      if sign = '-' then some (-(Token.natValue digits : Nat))
      else if sign = '+' then some (Token.natValue digits : Nat)
      else none
    else none
  | _ => none

/-- A number of digits, before it a power of ten. -/
def scaled (digits : List Char) (exponent : Int) : Binary64 :=
  let value := baseValue 10 digits
  if exponent < 0 then Binary64.ofRatio value (Nat.pow 10 (min exponent.natAbs 100000))
  else Binary64.ofRatio (value * Nat.pow 10 (min exponent.natAbs 100000)) 1

/-- The number that an unsigned word with a point denotes. -/
def realWord? (cs : List Char) : Option Binary64 :=
  let whole := cs.takeWhile (· != '.')
  match cs.dropWhile (· != '.') with
  | [] => none
  | _ :: after =>
    let fraction := after.takeWhile isDigitOrBar
    let places := (fraction.filter (· != '_')).length
    match colonParts whole with
    | [[]] =>
      if fraction.head?.any Char.isDigit then
        (exponent? (after.drop fraction.length)).map fun e => scaled fraction (e - places)
      else none
    | [digits] =>
      if digits.head?.any Char.isDigit && digits.all isDigitOrBar then
        (exponent? (after.drop fraction.length)).map fun e =>
          scaled (digits ++ fraction) (e - places)
      else none
    | first :: later =>
      if first.head?.any Char.isDigit && first.all isDigitOrBar && later.all isSixtieth
          && fraction.length = after.length then
        let minutes := (first :: later).foldl (fun value part => 60 * value + baseValue 10 part) 0
        let scale := Nat.pow 10 places
        some (Binary64.ofRatio (minutes * scale + baseValue 10 fraction) scale)
      else none
    | [] => none

/-- A year, a month and a day, and perhaps a time after them. -/
def isDate (cs : List Char) : Bool :=
  match (String.ofList (cs.takeWhile fun c => c.isDigit || c == '-')).splitOn "-" with
  | [year, month, day] =>
    year.length == 4 && month.length == 2 && day.length == 2 && cs.length == 10
  | _ => false

/-- What a plain scalar stands for; reserved words stand for nothing. -/
def plainValue (cs : List Char) : Option Value :=
  let word := String.ofList cs
  let (negative, magnitude) := unsigned cs
  if reservedWords.contains word then none
  else if nullWords.contains word then some .null
  else if trueWords.contains word then some (.truth true)
  else if falseWords.contains word then some (.truth false)
  else if infinityWords.contains (String.ofList magnitude) then some (.real negative .infinity)
  else if notANumberWords.contains word || isDate cs then some (.scalar word)
  else
    match natWord? magnitude with
    | some n => some (.int (if negative then -n else n))
    | none =>
      match realWord? magnitude with
      | some x => some (.real negative x)
      | none => some (.text word)

end TermReader.Yaml
