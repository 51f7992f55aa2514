import TermReader.Data.Problem
import TermReader.Text.Lines
import TermReader.Yaml.Document

/-!
Documents in files. Bytes that are no text are a problem of their own.
-/

namespace TermReader.Yaml

/-- The value of the document in the bytes of a file. -/
def ofBytes (bytes : ByteArray) : Except Problem Value :=
  match Text.ofBytes? bytes with
  | none => .error (.foreign "UnicodeDecodeError" "the file is no text in UTF-8")
  | some text =>
    match read? text with
    | none => .error (.malformed "the document is malformed")
    | some v => .ok v

end TermReader.Yaml
