import TermReader.Session.Configured
import Mathlib

/-!
Kept settings over time. An epoch lasts until the settings are cleared, and the settings that an
epoch shares are those of the first load in it that succeeds, made from the environment as it was
then. Every step of the epoch that asks for settings gets these, whatever the environment has
become. A load that fails, or one beside the kept settings, is as if it had not been made.
-/

namespace TermReader.SettingsCache

variable {ρ σ τ : Type}

/-- What can be done while settings are kept. Settings may also be loaded without regard to
those that are kept. -/
inductive Step (σ : Type)
  | setVariable (name : String) (value : Option String)
  | load
  | get
  | clear
  | parse (room : Nat) (source : String) (state : σ)

inductive Answer (σ τ : Type)
  | done
  | settings (answer : Except Problem Settings)
  | parsed (answer : Except Problem (Session.Reply σ τ))

namespace Step

/-- Whether the step asks for the settings that are kept. -/
def asks : Step σ → Bool
  | get | parse .. => true
  | _ => false

def clears : Step σ → Bool
  | clear => true
  | _ => false

/-- The environment after a step. -/
def after (environment : Variables) : Step σ → Variables
  | setVariable name (some value) => environment.set name value
  | setVariable name none => environment.unset name
  | _ => environment

/-- What a step is answered where its epoch shares some settings and a load now has some result.
An expression is parsed by a session of its own with the random source as it is. -/
def answer (chooser : Chooser ρ) (b : Builder σ τ) (shared : Option Settings)
    (now : Except Problem Settings) (random : ρ) : Step σ → Answer σ τ
  | setVariable .. | clear => .done
  | load => .settings now
  | get => .settings (shared.elim now .ok)
  | parse room source state => .parsed ((shared.elim now .ok).map fun settings =>
      ((Session.start .standard random settings.splits).parse chooser b room source none state).1)

end Step

section Run

variable (loader : Loader) (chooser : Chooser ρ) (b : Builder σ τ)

/-- A step. The random source outlives the sessions that draw from it. -/
def step (cache : SettingsCache) (random : ρ) : Step σ → Answer σ τ × SettingsCache × ρ
  | .setVariable name value => (.done, cache.setVariable name value, random)
  | .load => (.settings (cache.fresh loader), cache, random)
  | .get => let (settings, cache) := cache.get loader; (.settings settings, cache, random)
  | .clear => (.done, cache.clear, random)
  | .parse room source state =>
    let (reply, cache, random) := cache.parse loader chooser b room random source state
    (.parsed reply, cache, random)

def run (cache : SettingsCache) (random : ρ) :
    List (Step σ) → List (Answer σ τ) × SettingsCache × ρ
  | [] => ([], cache, random)
  | s :: steps =>
    let next := cache.step loader chooser b random s
    let later := run next.2.1 next.2.2 steps
    (next.1 :: later.1, later.2)

end Run

section History

variable (loader : Loader) (environment : Variables)

/-- The environment that steps lead to. -/
def environmentAfter (steps : List (Step σ)) : Variables := steps.foldl Step.after environment

/-- The loads that the asking steps would make, each from the environment of its time. -/
def loads (environment : Variables) : List (Step σ) → List (Except Problem Settings)
  | [] => []
  | s :: steps =>
    (if s.asks then [loader environment] else []) ++ loads (s.after environment) steps

/-- The steps of the last epoch, and those before it. -/
def epoch (steps : List (Step σ)) : List (Step σ) := steps.rtakeWhile (!·.clears)

def earlier (steps : List (Step σ)) : List (Step σ) := steps.rdropWhile (!·.clears)

/-- The settings that the last epoch shares: those of the first load in it that succeeds. -/
def shared? (steps : List (Step σ)) : Option Settings :=
  (loads loader (environmentAfter environment (earlier steps)) (epoch steps)).findSome?
    Except.toOption

/-- The result of a load after some steps. -/
def loadAfter (steps : List (Step σ)) : Except Problem Settings :=
  loader (environmentAfter environment steps)

end History

section Sharing

variable {loader : Loader} {environment : Variables} {steps : List (Step σ)} {s : Step σ}

theorem environmentAfter_append (steps later : List (Step σ)) :
    environmentAfter environment (steps ++ later) =
      environmentAfter (environmentAfter environment steps) later :=
  List.foldl_append

theorem loads_append (environment : Variables) (steps later : List (Step σ)) :
    loads loader environment (steps ++ later) =
      loads loader environment steps ++
        loads loader (environmentAfter environment steps) later := by
  induction steps generalizing environment with
  | nil => rfl
  | cons s steps ih =>
    rw [List.cons_append, loads, ih, loads, List.append_assoc]
    rfl

theorem findSome?_loads_singleton (environment : Variables) (s : Step σ) :
    (loads loader environment [s]).findSome? Except.toOption =
      if s.asks then (loader environment).toOption else none := by
  simp only [loads, List.append_nil]
  split <;> simp

/-- A clear begins an epoch that shares nothing yet. In any other step an epoch goes on, and
shares what it shared before, or else what the step loads. -/
theorem shared?_concat (steps : List (Step σ)) (s : Step σ) :
    shared? loader environment (steps ++ [s]) =
      if s.clears then none
      else (shared? loader environment steps).or
        (if s.asks then (loadAfter loader environment steps).toOption else none) := by
  have hsplit : environmentAfter environment steps =
      environmentAfter (environmentAfter environment (earlier steps)) (epoch steps) := by
    rw [← environmentAfter_append, earlier, epoch, List.rdropWhile_append_rtakeWhile]
  unfold shared? loadAfter
  rw [hsplit, epoch, earlier, List.rtakeWhile_concat, List.rdropWhile_concat]
  cases s.clears with
  | true => rfl
  | false =>
    simp only [Bool.not_false, if_true, Bool.false_eq_true, if_false]
    rw [loads_append, List.findSome?_append, findSome?_loads_singleton]
    rfl

end Sharing

section Runs

variable (loader : Loader) (chooser : Chooser ρ) (b : Builder σ τ)

/-- The settings that are kept, or else loaded now. -/
theorem get_eq (environment : Variables) (kept : Option Settings) :
    (mk environment kept).get loader =
      (kept.elim (loader environment) .ok,
        mk environment (kept.or (loader environment).toOption)) := by
  cases kept with
  | some settings => rfl
  | none =>
    unfold get fresh
    dsimp only
    cases loader environment <;> rfl

/-- Parsing asks for the settings and takes its splitting from them. No draw is made where there
are none. -/
theorem parse_eq (environment : Variables) (kept : Option Settings) (random : ρ) (room : Nat)
    (source : String) (state : σ) :
    (mk environment kept).parse loader chooser b room random source state =
      match kept.elim (loader environment) .ok with
      | .error problem =>
        (.error problem, mk environment (kept.or (loader environment).toOption), random)
      | .ok settings =>
        let run := (Session.start .standard random settings.splits).parse chooser b room source
          none state
        (.ok run.1, mk environment (kept.or (loader environment).toOption), run.2.random) := by
  unfold parse session splits
  rw [get_eq]
  dsimp only
  cases kept.elim (loader environment) .ok <;> rfl

/-- A step is answered from what is kept, or else from a load, which is kept if it succeeds. -/
theorem step_eq (environment : Variables) (kept : Option Settings) (random : ρ) (s : Step σ) :
    let next := (mk environment kept).step loader chooser b random s
    next.1 = s.answer chooser b kept (loader environment) random ∧
      next.2.1 = mk (s.after environment) (if s.clears then none
        else kept.or (if s.asks then (loader environment).toOption else none)) := by
  intro next
  cases s with
  | setVariable name value =>
    cases value <;>
      simp [next, step, setVariable, Step.answer, Step.after, Step.clears, Step.asks]
  | load => simp [next, step, fresh, Step.answer, Step.after, Step.clears, Step.asks]
  | get => simp [next, step, get_eq, Step.answer, Step.after, Step.clears, Step.asks]
  | clear => simp [next, step, clear, Step.answer, Step.after, Step.clears]
  | parse room source state =>
    simp only [next, step, parse_eq, Step.answer, Step.after, Step.clears, Step.asks, if_true,
      Bool.false_eq_true, if_false]
    cases kept.elim (loader environment) .ok <;> exact ⟨rfl, rfl⟩

/-- A load beside the kept settings, and one for settings that fails, change nothing. -/
theorem step_idle {environment : Variables} {kept : Option Settings} {s : Step σ}
    (h : s = .load ∨ (s.asks = true ∧ kept = none ∧ ∃ problem, loader environment = .error problem))
    (random : ρ) :
    ((mk environment kept).step loader chooser b random s).2 = (mk environment kept, random) := by
  rcases h with rfl | ⟨hasks, rfl, problem, hload⟩
  · rfl
  · cases s with
    | get => simp [step, get_eq, hload, Except.toOption]
    | parse room source state => simp [step, parse_eq, hload, Except.toOption]
    | _ => cases hasks

theorem run_append (cache : SettingsCache) (random : ρ) (steps later : List (Step σ)) :
    cache.run loader chooser b random (steps ++ later) =
      let first := cache.run loader chooser b random steps
      let second := first.2.1.run loader chooser b first.2.2 later
      (first.1 ++ second.1, second.2) := by
  induction steps generalizing cache random with
  | nil => rfl
  | cons s steps ih =>
    rw [List.cons_append, run, ih]
    rfl

theorem length_run (cache : SettingsCache) (random : ρ) (steps : List (Step σ)) :
    (cache.run loader chooser b random steps).1.length = steps.length := by
  induction steps generalizing cache random with
  | nil => rfl
  | cons s steps ih => exact congrArg (· + 1) (ih ..)

/-- Steps lead to an environment, and to the settings that the last epoch shares. -/
theorem run_eq (environment : Variables) (random : ρ) (steps : List (Step σ)) :
    ((start environment).run loader chooser b random steps).2.1 =
      mk (environmentAfter environment steps) (shared? loader environment steps) := by
  induction steps using List.reverseRecOn with
  | nil => rfl
  | append_singleton steps s ih =>
    rw [run_append, shared?_concat, environmentAfter_append]
    dsimp only
    rw [ih]
    exact (step_eq loader chooser b _ _ _ s).2

/-- However the steps go on, in each epoch the settings of the first load that succeeds are
shared: a step that asks for settings gets these, or while there are none the result of a load
at that time, and a load beside them has the result of that time in any case. A load that fails
and one beside the kept settings change no answer but their own. -/
theorem run_epochs (environment : Variables) (random : ρ) (before : List (Step σ)) (s : Step σ)
    (after : List (Step σ)) :
    let run := (start environment).run loader chooser b random
    let shared := shared? loader environment before
    let now := loadAfter loader environment before
    let answers := (run (before ++ s :: after)).1
    answers[before.length]? = some (s.answer chooser b shared now (run before).2.2) ∧
      (s = .load ∨ (s.asks = true ∧ shared = none ∧ ∃ problem, now = .error problem) →
        answers.eraseIdx before.length = (run (before ++ after)).1) := by
  intro run shared now answers
  have hstep := step_eq loader chooser b (environmentAfter environment before) shared
    (run before).2.2 s
  have hanswers : answers = (run before).1 ++
      (((run before).2.1.step loader chooser b (run before).2.2 s).1 ::
        (((run before).2.1.step loader chooser b (run before).2.2 s).2.1.run loader chooser b
          ((run before).2.1.step loader chooser b (run before).2.2 s).2.2 after).1) := by
    simp only [answers, run, run_append, SettingsCache.run]
  have hcache : (run before).2.1 = mk (environmentAfter environment before) shared :=
    run_eq loader chooser b environment random before
  have hlength : (run before).1.length = before.length :=
    length_run loader chooser b (start environment) random before
  rw [hcache] at hanswers
  constructor
  · rw [hanswers, ← hlength, List.getElem?_append_right (Nat.le_refl _), Nat.sub_self]
    exact congrArg some hstep.1
  · intro hidle
    have hsame := step_idle loader chooser b hidle (run before).2.2
    rw [hanswers, hsame, ← hlength, List.eraseIdx_append_of_length_le (Nat.le_refl _),
      Nat.sub_self, List.eraseIdx_cons_zero, ← hcache]
    exact congrArg Prod.fst (run_append loader chooser b _ random before after).symm

end Runs

/-- The variable that turns splitting on and off. -/
def setSplitting (value : String) : Step Unit :=
  .setVariable "MATHRUNTIME_SPLIT_IDENTIFIERS" (some value)

/-- A load fails, the next one succeeds while splitting is off, and splitting is turned on too
late for the epoch. -/
theorem run_epochs_splitting :
    let run := (start []).run (Settings.ofEnvironment []) .first .terms ()
    let later := [setSplitting "no", .parse 50 "xy" (), setSplitting "yes"]
    let answers := (run ([setSplitting "maybe"] ++ .get :: (later ++ [.get]))).1
    answers[5]? = some (.settings (.ok { splits := false })) ∧
      answers.eraseIdx 1 = (run ([setSplitting "maybe"] ++ (later ++ [.get]))).1 := by
  intro run later answers
  constructor
  · have hshared : shared? (Settings.ofEnvironment []) []
        ([setSplitting "maybe", .get] ++ later) = some { splits := false } := by
      decide +kernel
    have hget := (run_epochs (Settings.ofEnvironment []) .first .terms [] ()
      ([setSplitting "maybe", .get] ++ later) .get []).1
    rw [hshared] at hget
    exact hget
  · exact (run_epochs (Settings.ofEnvironment []) .first .terms [] () [setSplitting "maybe"] .get
      (later ++ [.get])).2 (.inr ⟨rfl, rfl, _, rfl⟩)

end TermReader.SettingsCache
