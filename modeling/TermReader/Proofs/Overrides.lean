import TermReader.Command.Run
import TermReader.Yaml.Load
import Mathlib

/-!
Options over settings. A run is determined by the settings with the options in their place, and by
the context that is loaded for it. So what an option stands in the place of changes no run, with
one exception: the context that the settings name is loaded even where another one is asked for,
and if that fails, so does the run.
-/

namespace TermReader

variable {ρ : Type}

namespace Settings

/-- The context that settings name; without a name it is the standard one. -/
def context (load : String → Except Problem Context) (settings : Settings) :
    Except Problem Context :=
  match settings.contextFile with
  | some path => if path.isEmpty then .ok .standard else load path
  | none => .ok .standard

theorem context_of_eq {load : String → Except Problem Context} {settings settings' : Settings}
    (h : settings.contextFile = settings'.contextFile) :
    settings.context load = settings'.context load := by
  rw [context, context, h]

/-- The session in a context of its own, with all else from the settings. -/
def sessionIn (sources : RandomSources ρ) (settings : Settings) (ctx : Context) : Session ρ :=
  .start ctx (sources.ofSeed? settings.seed) settings.splits

end Settings

theorem Session.ofSettings_eq (sources : RandomSources ρ) (load : String → Except Problem Context)
    (settings : Settings) :
    Session.ofSettings sources load settings =
      (settings.context load).map (settings.sessionIn sources) := by
  unfold Session.ofSettings Settings.context
  cases settings.contextFile with
  | none => rfl
  | some path =>
    dsimp only
    split
    · rfl
    · cases load path <;> rfl

theorem Files.normal_ne_empty (path : String) : (normal path).isEmpty = false := by
  unfold normal
  dsimp only
  split
  case isTrue => rfl
  case isFalse h => exact Bool.eq_false_iff.2 h

namespace Command

namespace Request

/-- The name of the level that is asked for; an empty one asks for none. -/
def levelName (r : Request) (settings : Settings) : String :=
  match r.logLevel with
  | some name => if name.isEmpty then settings.logLevel else name
  | none => settings.logLevel

/-- The settings with the options of a request in their place. -/
def amended (r : Request) (settings : Settings) : Settings where
  splits := r.splits.getD settings.splits
  seed := r.seed.or settings.seed
  contextFile := (r.context.map Files.normal).or settings.contextFile
  logLevel := r.levelName settings
  logFormat := settings.logFormat

/-- The context that is loaded for a request: the one that the settings name, and after it the
one that is asked for. -/
def load (r : Request) (load : String → Except Problem Context) (settings : Settings) :
    Except Problem Context := do
  let own ← settings.context load
  match r.context with
  | some path => load (Files.normal path)
  | none => return own

/-- Two settings differ only where the request has an option. An empty name of a level is none. -/
structure Overrides (r : Request) (settings settings' : Settings) : Prop where
  splits : r.splits = none → settings.splits = settings'.splits
  seed : r.seed = none → settings.seed = settings'.seed
  contextFile : r.context = none → settings.contextFile = settings'.contextFile
  logLevel : r.logLevel.getD "" = "" → settings.logLevel = settings'.logLevel
  logFormat : settings.logFormat = settings'.logFormat

variable {r : Request} {load : String → Except Problem Context} {settings settings' : Settings}

theorem Overrides.levelName_eq (h : r.Overrides settings settings') :
    r.levelName settings = r.levelName settings' := by
  have hlevel := h.logLevel
  unfold levelName
  cases hname : r.logLevel with
  | none => exact hlevel (by rw [hname]; rfl)
  | some name =>
    dsimp only
    split
    case isTrue hempty => exact hlevel (by rw [hname]; exact String.isEmpty_iff.1 hempty)
    case isFalse => rfl

theorem Overrides.amended_eq (h : r.Overrides settings settings') :
    r.amended settings = r.amended settings' := by
  have hsplits : r.splits.getD settings.splits = r.splits.getD settings'.splits := by
    cases hwanted : r.splits with
    | none => exact h.splits hwanted
    | some wanted => rfl
  have hseed : r.seed.or settings.seed = r.seed.or settings'.seed := by
    cases hwanted : r.seed with
    | none => exact h.seed hwanted
    | some seed => rfl
  have hfile : (r.context.map Files.normal).or settings.contextFile =
      (r.context.map Files.normal).or settings'.contextFile := by
    cases hwanted : r.context with
    | none => exact h.contextFile hwanted
    | some path => rfl
  rw [amended, amended, hsplits, hseed, hfile, h.levelName_eq, h.logFormat]

/-- Where the context that the settings name can be loaded, or none other is asked for, the one
that is loaded is that of the settings with the options in their place. -/
theorem load_eq_amended (hown : r.context = none ∨ ∃ ctx, settings.context load = .ok ctx) :
    r.load load settings = (r.amended settings).context load := by
  cases hcontext : r.context with
  | none =>
    have hsame : (r.amended settings).contextFile = settings.contextFile := by
      rw [amended, hcontext]
      rfl
    rw [Request.load, hcontext, Settings.context_of_eq hsame]
    exact bind_pure _
  | some path =>
    have hasked : (r.amended settings).contextFile = some (Files.normal path) := by
      rw [amended, hcontext]
      rfl
    obtain hnone | ⟨own, hown⟩ := hown
    · rw [hcontext] at hnone
      cases hnone
    · rw [Request.load, hcontext, hown, Settings.context, hasked]
      exact (if_neg (by simp [Files.normal_ne_empty])).symm

theorem load_of_error {problem : Problem} (h : settings.context load = .error problem) :
    r.load load settings = .error problem := by
  rw [Request.load, h]
  rfl

end Request

section Run

variable (host : Host ρ) (settings : Settings) (expression : String) (r : Request)

theorem session_eq : session host settings r = (r.load host.load settings).map fun ctx =>
    { (r.amended settings).sessionIn host.sources ctx with splits := settings.splits } := by
  unfold session Request.load
  rw [Session.ofSettings_eq]
  obtain ⟨expression, splits, seed, tokens, context, logLevel⟩ := r
  -- a context that is asked for replaces one that has been loaded already
  cases settings.context host.load with
  | error problem => rfl
  | ok own =>
    cases context with
    | none => cases seed <;> rfl
    | some path =>
      simp only [Except.map, bind, Except.bind]
      cases host.load (Files.normal path) with
      | error problem => rfl
      | ok ctx => cases seed <;> rfl

/-- Prints what a request asks for in a context. -/
def showIn (setup : Log.Setup) (settings : Settings) (ctx : Context) (expression : String)
    (tokens : Bool) : Outcome :=
  if tokens then showTokens host setup (settings.sessionIn host.sources ctx) expression none
  else showTerm host setup (settings.sessionIn host.sources ctx) expression none

/-- A run is determined by the settings with the options in their place, and by the context that
is loaded. -/
theorem perform_eq : perform host settings expression r =
    match Log.Setup.ofSettings (r.amended settings) with
    | .error problem => .escaped (.logLevel problem)
    | .ok setup =>
      match r.load host.load settings with
      | .error problem => loadOutcome problem
      | .ok ctx => showIn host setup (r.amended settings) ctx expression r.tokens := by
  -- the set-up of the log takes no more from the settings than the level and the format
  have hsetup : Log.Setup.ofSettings (r.amended settings) =
      Log.Setup.ofSettings { settings with logLevel := r.levelName settings } :=
    rfl
  unfold perform
  rw [session_eq, hsetup]
  unfold Request.levelName
  dsimp only
  cases Log.Setup.ofSettings _ with
  | error problem => rfl
  | ok setup =>
    cases r.load host.load settings with
    | error problem => rfl
    | ok ctx => rfl

variable {host settings expression r} {settings' : Settings} {args : List String}

theorem run_eq (hargs : request args = .ok (expression, r)) :
    run host (.ok settings) args = perform host settings expression r := by
  rw [run, hargs]

/-- The context that the settings name decides the run if it cannot be loaded. -/
theorem run_of_error {problem : Problem} (hargs : request args = .ok (expression, r))
    (hproblem : settings.context host.load = .error problem)
    (hlevel : Log.reserved.lookup (Log.capitals (r.levelName settings)) = none) :
    run host (.ok settings) args = loadOutcome problem := by
  have hsetup : Log.Setup.ofSettings (r.amended settings) =
      .ok ⟨(Log.levelNames.lookup (Log.capitals (r.levelName settings))).getD Log.Level.warning,
        Log.Format.ofName settings.logFormat⟩ := by
    have hname : Log.reserved.lookup (Log.capitals (r.amended settings).logLevel) = none := hlevel
    rw [Log.Setup.ofSettings, hname]
    rfl
  rw [run_eq hargs, perform_eq, hsetup, Request.load_of_error hproblem]

/-- Two runs with the same arguments end alike if their settings differ only where an option is
given, unless another context is asked for than the settings name and theirs cannot be loaded.
In that case it is as if none had been asked for, once the level of the log is set. -/
theorem run_overridden (hargs : request args = .ok (expression, r))
    (h : r.Overrides settings settings') :
    (r.context = none ∨ (∃ ctx, settings.context host.load = .ok ctx) ∧
        (∃ ctx, settings'.context host.load = .ok ctx) →
      run host (.ok settings) args = run host (.ok settings') args) ∧
    ∀ problem, settings.context host.load = .error problem →
      Log.reserved.lookup (Log.capitals (r.levelName settings)) = none →
      run host (.ok settings) args = loadOutcome problem := by
  refine ⟨fun hown => ?_, fun problem hproblem => run_of_error hargs hproblem⟩
  have hload : r.load host.load settings = r.load host.load settings' := by
    rw [Request.load_eq_amended (hown.imp_right And.left),
      Request.load_eq_amended (hown.imp_right And.right), h.amended_eq]
  rw [run_eq hargs, run_eq hargs, perform_eq, perform_eq, h.amended_eq, hload]

end Run

/-- One file, which holds the data of no table, and a random source that is never drawn from. -/
def oneContext : Host Unit where
  sources := ⟨.first, (), fun _ => ()⟩
  files path := if path = "ctx.yaml" then .contents .empty else .missing
  read := Yaml.ofBytes
  validator := .standard
  time := ""
  room := 50
  levels := 50

/-- Every option that overrides a setting is given, and every setting that is overridden differs. -/
theorem run_overridden_all :
    let args := ["xy", "--no-split", "--seed", "3", "--context", "ctx.yaml", "--log-level=error"]
    let settings : Settings :=
      { seed := some 7, contextFile := some "ctx.yaml", logLevel := "DEBUG" }
    run oneContext (.ok settings) args = run oneContext (.ok { splits := false }) args := by
  intro args settings
  let r : Request :=
    { expression := some "xy", splits := some false, seed := some 3, context := some "ctx.yaml",
      logLevel := some "error" }
  have hover : r.Overrides settings { splits := false } :=
    ⟨nofun, nofun, nofun, fun hnone => absurd hnone (by decide), rfl⟩
  exact (run_overridden rfl hover).1 (.inr ⟨⟨_, rfl⟩, _, rfl⟩)

/-- A context is asked for and can be loaded, but the settings name another one that is missing. -/
theorem overridden_context_is_loaded :
    let args := ["x", "--context", "ctx.yaml"]
    let r : Request := { expression := some "x", context := some "ctx.yaml" }
    let named : Settings := { contextFile := some "missing.yaml" }
    request args = .ok ("x", r) ∧ r.Overrides named {} ∧
      run oneContext (.ok named) args = .finished ⟨1, [],
        ["Error: [Errno 2] No such file or directory: 'missing.yaml'"]⟩ ∧
      run oneContext (.ok {}) args = .finished ⟨0, ["Variable(name='x')"], []⟩ := by
  intro args r named
  have hover : r.Overrides named {} :=
    ⟨fun _ => rfl, fun _ => rfl, fun hnone => absurd hnone (by decide), fun _ => rfl, rfl⟩
  have hargs : request args = .ok ("x", r) := rfl
  have hproblem : named.context oneContext.load = .error (.unreadable 2
      ("[Errno " ++ toString 2 ++ "] " ++ "No such file or directory" ++ ": "
        ++ Text.quoted "missing.yaml")) := rfl
  have hlevel : Log.reserved.lookup (Log.capitals "WARNING") = none := rfl
  have hshown : run oneContext (.ok {}) args = showReply oneContext ⟨Log.Level.warning, .text⟩ "x"
      ((Session.start (.empty "Default") () true).parse .first .terms 50 "x" none ()).1 := rfl
  have hreply : ((Session.start (.empty "Default") () true).parse .first .terms 50 "x" none ()).1 =
      ⟨⟨["x", Token.endMark], ["x", Token.endMark], []⟩, .ok (.leaf (.var "x")) ()⟩ := by
    cbv
  refine ⟨hargs, hover, ?_, ?_⟩
  · rw [run_of_error hargs hproblem hlevel]
    cbv
  · rw [hshown, hreply]
    rfl

end Command

end TermReader
