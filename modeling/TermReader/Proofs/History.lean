import TermReader.Proofs.Replies
import TermReader.Proofs.Splitting

/-!
Sessions over time. The list that a session owns is never handed out, so nobody else changes it.
What a session remembers after any number of steps can therefore be told from the steps and their
answers: context, splitting and random source are those assigned last, the random source has moved
on by one draw for every group met since then, and the tokens are those of the expression parsed
last. Where reading has stopped does not matter, since the next expression starts anew.
-/

namespace TermReader

/-- The groups of a token stream from left to right. -/
def Token.groups (tokens : List Token) : List Token.Alternatives :=
  (Token.segments tokens).filterMap fun
    | .literal _ => none
    | .group g => some g

/-- The random source after one draw for every choice. -/
def Chooser.after {ρ : Type} (chooser : Chooser ρ) (choices : List Token.Choice) (random : ρ) : ρ :=
  choices.foldl (fun random choice =>
    (chooser.draw choice.alternatives.others.length random).2) random

namespace Session

/-- What can be done with a session. The builder's own state and the room for calls come with the
expression that is parsed, and tokens may be appended to any list that has been handed out. -/
inductive Step (ρ σ : Type)
  | parse (room : Nat) (source : String) (splits : Option Bool) (state : σ)
  | tokenize (source : String) (splits : Option Bool)
  | copy
  | append (which : Nat) (token : Token)
  | setContext (context : Context)
  | setRandom (random : ρ)
  | setSplits (splits : Bool)

inductive Answer (σ τ : Type)
  | parsed (reply : Reply σ τ)
  | tokenized (prepared : Prepared)
  | copied (tokens : List Token)
  | done

namespace Step

variable {ρ σ : Type}

def context? : Step ρ σ → Option Context
  | setContext context => some context
  | _ => none

def random? : Step ρ σ → Option ρ
  | setRandom random => some random
  | _ => none

def splits? : Step ρ σ → Option Bool
  | setSplits splits => some splits
  | _ => none

/-- The expression that is parsed or tokenized. -/
def source? : Step ρ σ → Option String
  | parse _ source _ _ | tokenize source _ => some source
  | _ => none

end Step

namespace Answer

variable {σ τ : Type}

/-- The draws made for the answer. -/
def choices : Answer σ τ → List Token.Choice
  | .parsed reply => reply.prepared.choices
  | .tokenized prepared => prepared.choices
  | _ => []

/-- The tokens of an expression that was parsed, whether or not it could be read. -/
def parsedTokens? : Answer σ τ → Option (List Token)
  | .parsed reply => some reply.prepared.tokens
  | _ => none

end Answer

variable {ρ σ τ α β : Type} (chooser : Chooser ρ) (b : Builder σ τ)

def step (session : Session ρ) : Step ρ σ → Answer σ τ × Session ρ
  | .parse room source splits state =>
    let (reply, session) := session.parse chooser b room source splits state
    (.parsed reply, session)
  | .tokenize source splits =>
    let (prepared, session) := session.tokenize chooser source splits
    (.tokenized prepared, session)
  | .copy => (.copied session.tokens, session.handOutCopy)
  | .append which token => (.done, session.append which token)
  | .setContext context => (.done, { session with context })
  | .setRandom random => (.done, { session with random })
  | .setSplits splits => (.done, { session with splits })

def run (session : Session ρ) : List (Step ρ σ) → List (Answer σ τ) × Session ρ
  | [] => ([], session)
  | s :: steps =>
    let next := session.step chooser b s
    let later := run next.2 steps
    (next.1 :: later.1, later.2)

/-- The last of what items give, or else what was there before. -/
def latest (f : α → Option β) (initial : β) (items : List α) : β :=
  (items.filterMap f).getLast?.getD initial

/-- The random source after a step: the one assigned, or else the one before the step after
the draws made for the answer. -/
def moved (random : ρ) (exchange : Step ρ σ × Answer σ τ) : ρ :=
  exchange.1.random?.getD (chooser.after exchange.2.choices random)

/-- What can be told of a session: its settings, and the tokens that it shows. -/
@[ext]
structure Memory (ρ : Type) where
  context : Context
  random : ρ
  splits : Bool
  tokens : List Token

def memory (session : Session ρ) : Memory ρ :=
  ⟨session.context, session.random, session.splits, session.tokens⟩

namespace Memory

/-- The memory that steps and their answers lead to from an earlier one. -/
def recalled (memory : Memory ρ) (steps : List (Step ρ σ)) (answers : List (Answer σ τ)) :
    Memory ρ where
  context := latest Step.context? memory.context steps
  random := (steps.zip answers).foldl (moved chooser) memory.random
  splits := latest Step.splits? memory.splits steps
  tokens := latest Answer.parsedTokens? memory.tokens answers

/-- A step as answered by a session that has just been started with the same settings. Only a copy
of the tokens takes more than these. -/
def answer (memory : Memory ρ) : Step ρ σ → Answer σ τ
  | .copy => .copied memory.tokens
  | s => ((start memory.context memory.random memory.splits).step chooser b s).1

end Memory

/-- The list that a session owns has been made and is not handed out. -/
structure Apart (session : Session ρ) : Prop where
  own_lt : session.own < session.lists.length
  handedOut_lt : ∀ place ∈ session.handedOut, place < session.lists.length
  own_notMem : session.own ∉ session.handedOut

end Session

section Draws

variable {ρ : Type} (chooser : Chooser ρ)

/-- One choice is made for every group, in order, and the random source moves on by that. -/
theorem Token.resolve_choices (tokens : List Token) (random : ρ) :
    (resolve chooser tokens random).1.choices.map (·.alternatives) = groups tokens ∧
      (resolve chooser tokens random).2 =
        chooser.after (resolve chooser tokens random).1.choices random := by
  unfold resolve groups
  generalize segments tokens = parts
  induction parts generalizing random with
  | nil => exact ⟨rfl, rfl⟩
  | cons part parts ih =>
    cases part with
    | literal t => exact ih random
    | group g =>
      obtain ⟨hgroups, hrandom⟩ := ih (chooser.draw g.others.length random).2
      exact ⟨congrArg (g :: ·) hgroups, hrandom⟩

/-- Splitting neither makes nor breaks a group. -/
theorem Token.groups_split (ctx : Context) (tokens : List Token) :
    groups (split ctx tokens) = groups tokens := by
  unfold groups
  rw [segments_split]
  induction segments tokens with
  | nil => rfl
  | cons part parts ih =>
    rw [List.flatMap_cons, List.filterMap_append, ih]
    cases part with
    | literal t => simp [Segment.split]
    | group g => rfl

/-- Whatever the context and the splitting, one choice is made for every group that has
been scanned. -/
theorem Expression.prepare_choices (ctx : Context) (splits : Bool) (source : String) (random : ρ) :
    (prepare ctx splits chooser source random).1.choices.map (·.alternatives) =
        Token.groups (prepare ctx splits chooser source random).1.scanned ∧
      (prepare ctx splits chooser source random).2 =
        chooser.after (prepare ctx splits chooser source random).1.choices random := by
  cases splits with
  | false => exact Token.resolve_choices chooser _ random
  | true =>
    have h := Token.resolve_choices chooser (Token.split ctx (Token.scan source)) random
    rw [Token.groups_split] at h
    exact h

end Draws

namespace Session

variable {ρ σ τ α β : Type} {session : Session ρ}

/-! What the steps do to the lists. -/

section Lists

theorem apart_start (context : Context) (random : ρ) (splits : Bool) :
    (start context random splits).Apart :=
  ⟨Nat.zero_lt_one, nofun, nofun⟩

theorem Apart.handOut (h : session.Apart) (tokens : List Token) :
    (session.handOut tokens).Apart := by
  have hlength : (session.lists ++ [tokens]).length = session.lists.length + 1 := by simp
  refine ⟨hlength ▸ Nat.lt_succ_of_lt h.own_lt, ?_, ?_⟩
  · intro place hplace
    rw [Session.handOut, hlength]
    rcases List.mem_append.1 hplace with hold | hnew
    · exact Nat.lt_succ_of_lt (h.handedOut_lt place hold)
    · rw [List.mem_singleton.1 hnew]
      exact Nat.lt_succ_self _
  · intro hmem
    rcases List.mem_append.1 hmem with hold | hnew
    · exact h.own_notMem hold
    · exact Nat.ne_of_lt h.own_lt (List.mem_singleton.1 hnew)

theorem Apart.receive (h : session.Apart) (tokens : List Token) :
    (session.receive tokens).Apart := by
  have hlength : (session.lists ++ [tokens]).length = session.lists.length + 1 := by simp
  refine ⟨hlength ▸ Nat.lt_succ_self _, ?_, ?_⟩
  · intro place hplace
    rw [Session.receive, hlength]
    exact Nat.lt_succ_of_lt (h.handedOut_lt place hplace)
  · exact fun hmem => Nat.lt_irrefl _ (h.handedOut_lt _ hmem)

theorem Apart.append (h : session.Apart) (which : Nat) (token : Token) :
    (session.append which token).Apart := by
  unfold Session.append
  cases session.handedOut[which]? with
  | none => exact h
  | some place =>
    have hlength : (session.lists.modify place (· ++ [token])).length = session.lists.length :=
      List.length_modify ..
    exact ⟨hlength ▸ h.own_lt, fun p hp => hlength ▸ h.handedOut_lt p hp, h.own_notMem⟩

theorem tokens_handOut (h : session.Apart) (tokens : List Token) :
    (session.handOut tokens).tokens = session.tokens :=
  List.getD_append _ _ _ _ h.own_lt

/-- Whoever changes a list that has been handed out does not change the session's own. -/
theorem tokens_append (h : session.Apart) (which : Nat) (token : Token) :
    (session.append which token).tokens = session.tokens := by
  unfold append
  cases hplace : session.handedOut[which]? with
  | none => rfl
  | some place =>
    have hne : place ≠ session.own := by
      rintro rfl
      exact h.own_notMem (List.mem_of_getElem? hplace)
    simp only [Session.tokens, List.getD_eq_getElem?_getD, List.getElem?_modify, if_neg hne,
      id_map']

end Lists

/-! What a step tells of the session. -/

section Steps

variable (chooser : Chooser ρ) (b : Builder σ τ)

theorem step_apart (h : session.Apart) (s : Step ρ σ) : (session.step chooser b s).2.Apart := by
  have hprepared (random : ρ) : ({ session with random } : Session ρ).Apart :=
    ⟨h.own_lt, h.handedOut_lt, h.own_notMem⟩
  cases s with
  | parse room source splits state =>
    have hreceived := (hprepared (Expression.prepare session.context (splits.getD session.splits)
      chooser source session.random).2).receive (Expression.prepare session.context
        (splits.getD session.splits) chooser source session.random).1.tokens
    exact ⟨hreceived.own_lt, hreceived.handedOut_lt, hreceived.own_notMem⟩
  | tokenize source splits => exact (hprepared _).handOut _
  | copy => exact h.handOut _
  | append which token => exact h.append which token
  | setContext | setRandom | setSplits => exact ⟨h.own_lt, h.handedOut_lt, h.own_notMem⟩

theorem latest_cons (f : α → Option β) (initial : β) (x : α) (xs : List α) :
    latest f initial (x :: xs) = latest f ((f x).getD initial) xs := by
  unfold latest
  cases hx : f x with
  | none => rw [List.filterMap_cons_none hx, Option.getD_none]
  | some y =>
    rw [List.filterMap_cons_some hx, List.getLast?_cons, Option.getD_some, Option.getD_some]

/-- A step makes of the memory what the step and its answer tell. -/
theorem memory_step (h : session.Apart) (s : Step ρ σ) :
    (session.step chooser b s).2.memory =
      session.memory.recalled chooser [s] [(session.step chooser b s).1] := by
  cases s with
  | parse room source splits state =>
    have hrandom := (Expression.prepare_choices chooser session.context
      (splits.getD session.splits) source session.random).2
    exact Memory.ext rfl hrandom rfl (tokens_receive _ _)
  | tokenize source splits =>
    have hrandom := (Expression.prepare_choices chooser session.context
      (splits.getD session.splits) source session.random).2
    exact Memory.ext rfl hrandom rfl (tokens_handOut ⟨h.own_lt, h.handedOut_lt, h.own_notMem⟩ _)
  | copy => exact Memory.ext rfl rfl rfl (tokens_handOut h _)
  | append which token =>
    have hsame : (session.append which token).context = session.context ∧
        (session.append which token).random = session.random ∧
          (session.append which token).splits = session.splits := by
      unfold append
      cases session.handedOut[which]? <;> exact ⟨rfl, rfl, rfl⟩
    exact Memory.ext hsame.1 hsame.2.1 hsame.2.2 (tokens_append h which token)
  | setContext | setRandom | setSplits => rfl

/-- So do any number of steps and their answers. -/
theorem memory_run (h : session.Apart) (steps : List (Step ρ σ)) :
    (session.run chooser b steps).2.memory =
      session.memory.recalled chooser steps (session.run chooser b steps).1 := by
  induction steps generalizing session with
  | nil => rfl
  | cons s steps ih =>
    have hstep := memory_step chooser b h s
    rw [run]
    dsimp only
    rw [ih (step_apart chooser b h s), hstep]
    simp only [Memory.recalled, latest_cons, List.zip_cons_cons, List.foldl_cons]
    rfl

theorem run_append (steps later : List (Step ρ σ)) :
    session.run chooser b (steps ++ later) =
      ((session.run chooser b steps).1 ++ ((session.run chooser b steps).2.run chooser b later).1,
        ((session.run chooser b steps).2.run chooser b later).2) := by
  induction steps generalizing session with
  | nil => rfl
  | cons s steps ih =>
    rw [List.cons_append, run, ih]
    rfl

theorem length_run (steps : List (Step ρ σ)) :
    (session.run chooser b steps).1.length = steps.length := by
  induction steps generalizing session with
  | nil => rfl
  | cons s steps ih => exact congrArg (· + 1) ih

/-- A step is answered by what the session remembers. -/
theorem step_answer (s : Step ρ σ) :
    (session.step chooser b s).1 = session.memory.answer chooser b s := by
  cases s with
  | parse room source splits state =>
    exact congrArg Answer.parsed (session.parse_eq chooser b room source splits state)
  | copy | tokenize | append | setContext | setRandom | setSplits => rfl

theorem choices_answer (memory : Memory ρ) {s : Step ρ σ} {source : String}
    (hs : s.source? = some source) :
    (memory.answer chooser b s).choices.map (·.alternatives) =
      Token.groups (Token.scan source) := by
  cases s with
  | parse room source splits state =>
    cases hs
    exact (Expression.prepare_choices chooser _ _ source _).1
  | tokenize source splits =>
    cases hs
    exact (Expression.prepare_choices chooser _ _ source _).1
  | copy | append | setContext | setRandom | setSplits => cases hs

/-- Nothing of an expression outlives it but its tokens and the draws made for it. However a
session has been used and whatever has failed or been changed, its settings are those assigned
last, its tokens are those of the expression parsed last, and its random source has made one draw
for every group of every expression. The next step is answered as by a session just started with
these settings; only a copy of the tokens takes more. -/
theorem run_start (context : Context) (random : ρ) (splits : Bool) (steps : List (Step ρ σ)) :
    let session := start context random splits
    let initial : Memory ρ := ⟨context, random, splits, []⟩
    let answers := (session.run chooser b steps).1
    (session.run chooser b steps).2.memory = initial.recalled chooser steps answers ∧
      ∀ before s after, steps = before ++ s :: after →
        ∃ answer, answers[before.length]? = some answer ∧
          answer = (initial.recalled chooser before (answers.take before.length)).answer
            chooser b s ∧
          ∀ source, s.source? = some source →
            answer.choices.map (·.alternatives) = Token.groups (Token.scan source) := by
  intro session initial answers
  have hapart : session.Apart := apart_start context random splits
  refine ⟨memory_run chooser b hapart steps, fun before s after hsteps => ?_⟩
  have hlength : (session.run chooser b before).1.length = before.length :=
    length_run chooser b before
  have hanswers : answers = (session.run chooser b before).1 ++
      ((session.run chooser b before).2.run chooser b (s :: after)).1 := by
    simp only [answers, hsteps, run_append]
  have hanswer : (((session.run chooser b before).2).step chooser b s).1 =
      ((session.run chooser b before).2).memory.answer chooser b s := step_answer chooser b s
  have htake : answers.take before.length = (session.run chooser b before).1 := by
    rw [hanswers, List.take_append_of_le_length hlength.ge, ← hlength, List.take_length]
  rw [memory_run chooser b hapart before, ← htake] at hanswer
  refine ⟨_, ?_, hanswer, fun source hs => ?_⟩
  · rw [hanswers, ← hlength, List.getElem?_append_right (Nat.le_refl _), Nat.sub_self]
    rfl
  · rw [hanswer]
    exact choices_answer chooser b _ hs

end Steps

/-- Parsing stops at the end of an open bracket, a copy of the tokens is changed, and the next
expression is a single token. -/
theorem run_start_open_bracket :
    let steps : List (Step Unit Unit) :=
      [.parse 50 "(1" none (), .copy, .append 0 ")", .parse 50 "x" none (), .copy]
    let answers := ((start .standard () true).run .first .terms steps).1
    answers[3]? = some (.parsed ⟨⟨["x", Token.endMark], ["x", Token.endMark], []⟩,
        .ok (.leaf (.var "x")) ()⟩) ∧
      answers[4]? = some (.copied ["x", Token.endMark]) := by
  intro steps answers
  have hanswers := (run_start .first .terms .standard () true steps).2
  obtain ⟨parsed, hparsed, hagain, -⟩ := hanswers (steps.take 3) _ _ rfl
  obtain ⟨copied, hcopied, htokens, -⟩ := hanswers (steps.take 4) _ _ rfl
  refine ⟨hparsed.trans (congrArg some (hagain.trans ?_)),
    hcopied.trans (congrArg some (htokens.trans ?_))⟩
  · cbv
  · cbv

end Session

end TermReader
