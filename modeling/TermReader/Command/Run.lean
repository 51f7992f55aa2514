import TermReader.Command.Options
import TermReader.Context.Load
import TermReader.Log.Setup
import TermReader.Log.Parsing
import TermReader.Session.Configured
import TermReader.Term.Listing

/-!
What the command does with its arguments, the settings and the files. It prints
the listing of a term, or the processed tokens; an expression that is rejected
and a context that cannot be loaded end it with a message. Options win over
settings, but settings are loaded first, and so is the context they name.
-/

namespace TermReader.Command

/-- What a run takes from outside: the random sources, the files and what is made
of them, the time of its log records, the room for calls within one another, and
the levels of a term that can be listed. -/
structure Host (ρ : Type) where
  sources : RandomSources ρ
  files : Files
  read : Context.DocumentReader
  validator : Validator
  time : String
  room : Nat
  levels : Nat

/-- How a run ends that is not answered by a message and an exit code. -/
inductive Escape
  | settings (problem : Problem)
  | logLevel (problem : Problem)
  | context (problem : Problem)
  | stopped (stop : Stop)
  | unlistable
  deriving DecidableEq

/-- What is wrong, in words. -/
def Escape.message : Escape → String
  | settings problem | logLevel problem | context problem => problem.text
  | stopped stop => stop.message
  | unlistable => Stop.exhausted.message

structure Output where
  exit : Nat
  stdout : List String
  stderr : List String
  deriving DecidableEq

inductive Outcome
  | finished (output : Output)
  | usage (usage : Usage)
  | escaped (escape : Escape)
  deriving DecidableEq

/-- The last line of a run that fails. -/
def failureMessage (text : String) : String := "Error: " ++ text

/-- The outcome where a context cannot be loaded. -/
def loadOutcome (problem : Problem) : Outcome :=
  if problem.isForeign then .escaped (.context problem)
  else .finished ⟨1, [], [failureMessage problem.text]⟩

def rejectedRecord (expression : String) : Log.Record where
  level := Log.Level.info
  source := "mathruntime.cli"
  message := "Rejected expression"
  fields
    | .expression => some (.text expression)
    | _ => none
  problem := none

/-- The paths of contexts that a run may load. -/
def contextPaths (settings : Settings) (r : Request) : List String :=
  settings.contextFile.toList ++ r.context.toList.map Files.normal

variable {ρ : Type} (host : Host ρ)

/-- The context at a path. -/
def Host.load (path : String) : Except Problem Context :=
  Context.load host.read host.validator host.files path

/-- The session that settings and options ask for. -/
def session (settings : Settings) (r : Request) : Except Problem (Session ρ) := do
  let session ← Session.ofSettings host.sources host.load settings
  let session ←
    match r.context with
    | some path => do
      let context ← host.load (Files.normal path)
      pure { session with context }
    | none => pure session
  return match r.seed with
    | some seed => { session with random := host.sources.seeded seed }
    | none => session

/-- Prints the processed tokens of an expression. -/
def showTokens (setup : Log.Setup) (session : Session ρ) (expression : String)
    (splits : Option Bool) : Outcome :=
  let (prepared, _) := session.tokenize host.sources.chooser expression splits
  .finished ⟨0, [" ".intercalate prepared.tokens],
    setup.lines host.time (Log.preparedRecords expression prepared)⟩

/-- Prints the listing of the term that an expression was read as, or why it was
rejected. -/
def showReply (setup : Log.Setup) (expression : String) (reply : Session.Reply Unit Term) :
    Outcome :=
  let records := Log.readingRecords expression reply.prepared reply.rejection?
  match reply.result with
  | .ok term _ =>
    if term.height ≤ host.levels then
      .finished ⟨0, [term.listing], setup.lines host.time records⟩
    else .escaped .unlistable
  | .error (.failed (.rejected rejection)) _ =>
    .finished ⟨1, [], setup.lines host.time (records ++ [rejectedRecord expression])
      ++ [failureMessage rejection.message]⟩
  | .error stop _ => .escaped (.stopped stop)

/-- Parses an expression and prints what has become of it. -/
def showTerm (setup : Log.Setup) (session : Session ρ) (expression : String)
    (splits : Option Bool) : Outcome :=
  let (reply, _) :=
    session.parse host.sources.chooser Builder.terms host.room expression splits ()
  showReply host setup expression reply

/-- Carries out a request under given settings. -/
def perform (settings : Settings) (expression : String) (r : Request) : Outcome :=
  let logLevel :=
    match r.logLevel with
    | some name => if name.isEmpty then settings.logLevel else name
    | none => settings.logLevel
  match Log.Setup.ofSettings { settings with logLevel } with
  | .error problem => .escaped (.logLevel problem)
  | .ok setup =>
    match session host settings r with
    | .error problem => loadOutcome problem
    | .ok session =>
      if r.tokens then showTokens host setup session expression r.splits
      else showTerm host setup session expression r.splits

/-- The paths of the contexts that a run may read. -/
def paths (settings : Except Problem Settings) (args : List String) : List String :=
  match request args, settings with
  | .ok (_, r), .ok settings => contextPaths settings r
  | _, _ => []

/-- Runs the command with what loading the settings has come to. -/
def run (settings : Except Problem Settings) (args : List String) : Outcome :=
  match request args with
  | .error usage => .usage usage
  | .ok (expression, r) =>
    match settings with
    | .error problem => .escaped (.settings problem)
    | .ok settings => perform host settings expression r

end TermReader.Command
