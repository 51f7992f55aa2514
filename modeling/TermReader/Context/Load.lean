import TermReader.Context.Build
import TermReader.Data.Files

/-!
Contexts from files. What the bytes of a file mean is told by a reader of
documents, and what the data describes by a validator.
-/

namespace TermReader.Context

/-- A reader of documents: the data in the bytes of a file. -/
abbrev DocumentReader := ByteArray → Except Problem Value

variable (read : DocumentReader) (V : Validator)

/-- The context that the data of a file describes; no data means an empty one. -/
def ofDocument (v : Value) : Except Problem Context :=
  ofValue V (if v.isBlank then .object [] else v)

/-- The context in the contents of a file. -/
def ofBytes (bytes : ByteArray) : Except Problem Context := do
  ofDocument V (← read bytes)

def load (files : Files) (path : String) : Except Problem Context := do
  ofBytes read V (← files.read path)

end TermReader.Context
