import TermReader.Data.Problem
import TermReader.Text.Quoted

/-!
The files that can be named, as far as reading them goes. A path leads to the
contents of a file, or to a problem that the system has with it.
-/

namespace TermReader

inductive FileState
  | unreadable (number : Nat) (words : String)
  | contents (bytes : ByteArray)

namespace FileState

def missing : FileState := unreadable 2 "No such file or directory"

def directory : FileState := unreadable 21 "Is a directory"

end FileState

/-- What each path leads to. -/
abbrev Files := String → FileState

namespace Files

/-- The problem of a path that names no file on any system. -/
def nullProblem : Problem := .foreign "ValueError" "embedded null byte"

/-- The contents at a path. -/
def read (files : Files) (path : String) : Except Problem ByteArray :=
  if '\x00' ∈ path.toList then .error nullProblem
  else
    match files path with
    | .unreadable number words =>
      .error (.unreadable number
        ("[Errno " ++ toString number ++ "] " ++ words ++ ": " ++ Text.quoted path))
    | .contents bytes => .ok bytes

/-- What stands between the separators of a path. -/
def between : List Char → List (List Char)
  | [] => [[]]
  | c :: cs => if c = '/' then [] :: between cs else (between cs).modifyHead (c :: ·)

/-- The names on a path; a point stays where it is. -/
def segments (path : String) : List String :=
  ((between path.toList).map String.ofList).filter fun name => !name.isEmpty && name != "."

/-- The root that a path starts from, if any. Two separators are a root of their own. -/
def root (path : String) : String :=
  match (path.toList.takeWhile (· = '/')).length with
  | 0 => ""
  | 2 => "//"
  | _ => "/"

/-- The path in its shortest spelling. The present directory is named by a point. -/
def normal (path : String) : String :=
  let text := root path ++ "/".intercalate (segments path)
  if text.isEmpty then "." else text

/-- Files and directories by name, in the present directory. Beside them there
are only the directories above. -/
def ofList (entries : List (String × FileState)) : Files := fun path =>
  if path.isEmpty then .missing
  else if (segments path).all (· == "..") then .directory
  else if path.front = '/' then .missing
  else
    match entries.find? fun entry => segments entry.1 == segments path with
    | some entry => entry.2
    | none => .missing

end Files

end TermReader
