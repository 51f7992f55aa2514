import TermReader.Settings.Basic
import TermReader.Data.Entries
import TermReader.Data.Problem

/-!
Where settings come from. Explicit values win over the variables of the
environment, and these over a file of variables. Names of variables start with
a common mark and do not depend on case; of two spellings the later one counts.
-/

namespace TermReader

/-- Variables and their values. -/
abbrev Variables := Entries String

namespace Variables

def lower (name : String) : String := String.ofList (name.toList.map Char.toLower)

/-- The mark at the start of the names of variables. -/
def mark : String := "mathruntime_"

/-- The value of a setting. -/
def find? (vars : Variables) (s : Setting) : Option String :=
  (vars.reverse.find? fun entry => lower entry.1 == mark ++ lower s.label).map (·.2)

end Variables

namespace Settings

/-- The settings from explicit values, the environment, and the file. -/
def load (explicit : List (String × Value)) (environment file : Variables) :
    Except (List Fault) Settings :=
  build fun s =>
    match Entries.last? explicit s.label with
    | some v => some v
    | none =>
      match environment.find? s with
      | some text => some (.text text)
      | none => (file.find? s).map .text

/-- The settings from the environment and the file; faults are one problem. -/
def ofEnvironment (file environment : Variables) : Except Problem Settings :=
  (load [] environment file).mapError .ofFaults

end Settings

end TermReader
