/-!
Text files end their lines in several ways. Read as text, each way becomes one
line feed.
-/

namespace TermReader.Text

/-- Turns carriage returns, alone or before a line feed, into line feeds. -/
def unifyBreaks : List Char → List Char
  | [] => []
  | '\r' :: '\n' :: rest => '\n' :: unifyBreaks rest
  | c :: rest => (if c = '\r' then '\n' else c) :: unifyBreaks rest

/-- The text of a file, or nothing when its bytes are no text in UTF-8. -/
def ofBytes? (bytes : ByteArray) : Option String :=
  (String.fromUTF8? bytes).map fun text => String.ofList (unifyBreaks text.toList)

end TermReader.Text
