import TermReader.Text.Printable

/-!
Quoted text for messages and term listings. Text stands in single quotes, or in
double quotes when it holds a single quote and no double one; the backslash, the
quote in use and all unprintable characters are escaped.
-/

namespace TermReader.Text

def hexDigits (width value : Nat) : List Char :=
  let digits := Nat.toDigits 16 value
  List.replicate (width - digits.length) '0' ++ digits

/-- The escape of an unprintable character, of the least width that holds it. -/
def numericEscape (c : Char) : List Char :=
  let value := c.toNat
  if value < 0x100 then '\\' :: 'x' :: hexDigits 2 value
  else if value < 0x10000 then '\\' :: 'u' :: hexDigits 4 value
  else '\\' :: 'U' :: hexDigits 8 value

def quotedChar (quote c : Char) : List Char :=
  if c = quote ∨ c = '\\' then ['\\', c]
  else if c = '\n' then ['\\', 'n']
  else if c = '\r' then ['\\', 'r']
  else if c = '\t' then ['\\', 't']
  else if isPrintable c then [c]
  else numericEscape c

def quoteFor (cs : List Char) : Char :=
  if cs.contains '\'' && !cs.contains '"' then '"' else '\''

def quotedChars (cs : List Char) : List Char :=
  let quote := quoteFor cs
  quote :: cs.flatMap (quotedChar quote) ++ [quote]

def quoted (text : String) : String := String.ofList (quotedChars text.toList)

/-- Items in brackets. -/
def bracketed (items : List String) : String := "[" ++ ", ".intercalate items ++ "]"

/-- Quoted items in brackets. -/
def quotedList (items : List String) : String := bracketed (items.map quoted)

end TermReader.Text
