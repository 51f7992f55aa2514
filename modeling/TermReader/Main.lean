import Std.Time.DateTime.Timestamp
import TermReader.Command.Run
import TermReader.Log.Time
import TermReader.Random.Dice
import TermReader.Settings.VariableFile
import TermReader.Yaml.Load

/-!
The command line. It collects what a run may ask for, the variables of the
environment, the contents of files and a seed for those who ask for none, and
prints what the run yields.
-/

namespace TermReader.Command

/-- The variables of the environment that name settings, in small and in capital
letters; those in capitals count. -/
def readEnvironment : IO Variables := do
  let names := Setting.all.map fun s => Variables.mark ++ Variables.lower s.label
  let mut found : Variables := []
  for name in names ++ names.map String.toUpper do
    if let some value ← IO.getEnv name then
      found := found.set name value
  return found

/-- What a path leads to. -/
def readFile (path : String) : IO FileState :=
  try
    return .contents (← IO.FS.readBinFile path)
  catch
    | .noFileOrDirectory .. => return .missing
    | .permissionDenied .. => return .unreadable 13 "Permission denied"
    | _ => return .directory

/-- The files at some paths; all others count as missing. -/
def readFiles (paths : List String) : IO Files := do
  let entries ← paths.mapM fun path => return (path, ← readFile path)
  return fun path => (entries.lookup path).getD .missing

/-- The random sources of a run. -/
def randomSources (seed : Nat) : RandomSources Dice :=
  ⟨Dice.chooser, .shared (Twister.ofSeed seed), Dice.ofSeed⟩

/-- The room for calls within one another, beside those that lead to a parse. -/
def callRoom : Nat := 990

/-- The levels of a term that can be listed with this room. -/
def listedLevels : Nat := 240

def printLines (stream : IO.FS.Stream) (lines : List String) : IO Unit :=
  lines.forM fun line => stream.putStrLn line

/-- Prints the outcome of a run and returns its exit code. -/
def report : Outcome → IO Nat
  | .finished output => do
    printLines (← IO.getStdout) output.stdout
    printLines (← IO.getStderr) output.stderr
    return output.exit
  | .usage usage => do
    unless usage.message.isEmpty do printLines (← IO.getStderr) [usage.message]
    return usage.exit
  | .escaped escape => do
    printLines (← IO.getStderr) [escape.message]
    return 1

end TermReader.Command

open TermReader in
def main (args : List String) : IO UInt32 := do
  let fileVariables := VariableFile.load (← Command.readFiles [VariableFile.path])
  let settings := Settings.ofEnvironment fileVariables (← Command.readEnvironment)
  let entropy ← IO.getRandomBytes 16
  let now ← Std.Time.Timestamp.now
  let host : Command.Host Dice :=
    { sources := Command.randomSources (entropy.foldl (fun seed byte => 256 * seed + byte.toNat) 0)
      files := ← Command.readFiles (Command.paths settings args)
      read := Yaml.ofBytes
      validator := .standard
      time := Log.timeText now.toSecondsSinceUnixEpoch.val
      room := Command.callRoom
      levels := Command.listedLevels }
  let exit ← Command.report (Command.run host settings args)
  return exit.toUInt32
