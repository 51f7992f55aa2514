import TermReader.Data.Value
import TermReader.Number.Shortest
import TermReader.Text.Quoted

/-!
Values on one line, in two notations: as JSON, and as listed in messages. Both
put a comma and a space between items, and a colon and a space before a field.
-/

namespace TermReader

namespace Text

/-- Only the quote, the backslash and control characters are escaped in JSON. -/
def jsonChar (c : Char) : List Char :=
  if c = '"' then ['\\', '"']
  else if c = '\\' then ['\\', '\\']
  else if c = '\n' then ['\\', 'n']
  else if c = '\r' then ['\\', 'r']
  else if c = '\t' then ['\\', 't']
  else if c = '\x08' then ['\\', 'b']
  else if c = '\x0c' then ['\\', 'f']
  else if c < ' ' then ['\\', 'u'] ++ hexDigits 4 c.toNat
  else [c]

def jsonText (text : String) : String :=
  String.ofList ('"' :: text.toList.flatMap jsonChar ++ ['"'])

/-- Fields in braces. -/
def braced (items : List String) : String := "\x7b" ++ ", ".intercalate items ++ "\x7d"

def signed (negative : Bool) (text : String) : String := if negative then "-" ++ text else text

end Text

namespace Value

open Text

mutual

def json : Value → String
  | null => "null"
  | truth value => if value then "true" else "false"
  | int value => toString value
  | real negative magnitude =>
    signed negative (if magnitude = .infinity then "Infinity" else magnitude.render)
  | text value => jsonText value
  | scalar spelling => jsonText spelling
  | list items => bracketed (jsonItems items)
  | object fields => braced (jsonFields fields)

def jsonItems : List Value → List String
  | [] => []
  | v :: vs => json v :: jsonItems vs

def jsonFields : List (String × Value) → List String
  | [] => []
  | (name, v) :: rest => (jsonText name ++ ": " ++ json v) :: jsonFields rest

end

mutual

/-- The value as it is listed in messages, with texts in quotes. -/
def listing : Value → String
  | null => "None"
  | truth value => if value then "True" else "False"
  | int value => toString value
  | real negative magnitude => signed negative magnitude.render
  | text value => quoted value
  | scalar spelling => spelling
  | list items => bracketed (listingItems items)
  | object fields => braced (listingFields fields)

def listingItems : List Value → List String
  | [] => []
  | v :: vs => listing v :: listingItems vs

def listingFields : List (String × Value) → List String
  | [] => []
  | (name, v) :: rest => (quoted name ++ ": " ++ listing v) :: listingFields rest

end

/-- The value as it is shown in a message: a text stands for itself. -/
def shown : Value → String
  | text value => value
  | v => v.listing

end Value

end TermReader
