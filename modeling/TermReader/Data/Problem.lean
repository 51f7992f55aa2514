import TermReader.Data.Fault

/-!
Problems met on the way to data: a file that cannot be read, a document that is
malformed, data with faults, and whatever else goes wrong.
-/

namespace TermReader

/-- A problem and its text. A system tells the problems of files apart by
numbers; a problem that is foreign to data is known by its kind. -/
inductive Problem
  | unreadable (number : Nat) (text : String)
  | malformed (text : String)
  | invalid (faults : List Fault) (text : String)
  | foreign (kind text : String)
  deriving DecidableEq

namespace Problem

def text : Problem → String
  | unreadable _ text | malformed text | invalid _ text | foreign _ text => text

/-- The problem of data with faults. -/
def ofFaults (faults : List Fault) : Problem :=
  invalid faults ("; ".intercalate (faults.map (·.kind.message)))

def isForeign : Problem → Bool
  | foreign .. => true
  | _ => false

end Problem

end TermReader
