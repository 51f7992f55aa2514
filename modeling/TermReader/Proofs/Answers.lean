import TermReader.Proofs.Extension
import TermReader.Proofs.Numerals
import TermReader.Proofs.Overrides

/-!
What the command answers. Under the settings that hold where none is made, a run prints a term or
tokens, or it ends with a message about the context or the expression. A few things keep it from an
answer: a path that names no file on any system, a document with a problem that is foreign to data,
an integer numeral beyond the digit limit, and brackets or terms that are nested too deeply.
-/

namespace TermReader

/-- A path has a foreign problem only if it names no file on any system. -/
theorem Files.read_foreign_iff {files : Files} {path : String} {problem : Problem}
    (hforeign : problem.isForeign = true) :
    files.read path = .error problem ↔ '\x00' ∈ path.toList ∧ problem = nullProblem := by
  unfold read
  split
  · next hnull => simp [hnull, eq_comm]
  · next hnull =>
    cases files path with
    | unreadable number words =>
      simp only [Except.error.injEq, hnull, false_and, iff_false]
      rintro rfl
      cases hforeign
    | contents bytes => simp [hnull]

namespace Context

variable {read : DocumentReader} {V : Validator} {problem : Problem}

/-- What a validator refuses is invalid. -/
theorem ofDocument_ne_foreign (hV : V.Lawful) (hforeign : problem.isForeign = true) (v : Value) :
    ofDocument V v ≠ .error problem := by
  intro herror
  have hrefused : ∃ faults text, problem = .invalid faults text := by
    unfold ofDocument at herror
    generalize (if v.isBlank then Value.object [] else v) = document at herror
    cases document with
    | object fields => exact hV.invalid herror
    | _ =>
      obtain ⟨faults, text, hrefusal⟩ := hV.refuses _
      exact ⟨faults, text, (Except.error.inj herror).symm.trans hrefusal⟩
  obtain ⟨faults, text, rfl⟩ := hrefused
  cases hforeign

theorem ofBytes_foreign_iff (hV : V.Lawful) (hforeign : problem.isForeign = true)
    {bytes : ByteArray} : ofBytes read V bytes = .error problem ↔ read bytes = .error problem := by
  unfold ofBytes
  cases read bytes with
  | error e =>
    change Except.error e = _ ↔ _
    simp
  | ok v => exact iff_of_false (ofDocument_ne_foreign hV hforeign v) nofun

/-- So only a path or a document has a foreign problem. -/
theorem load_foreign_iff (hV : V.Lawful) (hforeign : problem.isForeign = true) {files : Files}
    {path : String} :
    load read V files path = .error problem ↔
      '\x00' ∈ path.toList ∧ problem = Files.nullProblem ∨
        ∃ bytes, files.read path = .ok bytes ∧ read bytes = .error problem := by
  rw [← Files.read_foreign_iff hforeign]
  unfold load
  cases files.read path with
  | error e =>
    change Except.error e = _ ↔ _
    simp
  | ok bytes =>
    change ofBytes read V bytes = _ ↔ _
    simpa using ofBytes_foreign_iff hV hforeign

end Context

/-- The names of levels are not reserved. -/
theorem Log.lookup_reserved {name : String} {level : Int}
    (h : levelNames.lookup name = some level) : reserved.lookup name = none := by
  have hformat : name ≠ "BASIC_FORMAT" := by
    rintro rfl
    cases h
  have hstyles : name ≠ "_STYLES" := by
    rintro rfl
    cases h
  rw [reserved, List.lookup_cons, beq_false_of_ne hformat, List.lookup_cons,
    beq_false_of_ne hstyles]
  rfl

namespace Command

variable {ρ : Type}

namespace Request

/-- The reply to an expression in a context, with the options that are given and otherwise without
settings. -/
def reply (r : Request) (host : Host ρ) (ctx : Context) (expression : String) :
    Session.Reply Unit Term :=
  (((r.amended {}).sessionIn host.sources ctx).parse host.sources.chooser Builder.terms host.room
    expression none ()).1

/-- The level of the log is one of the known ones, if it is asked for at all. -/
def HasKnownLevel (r : Request) : Prop :=
  ∀ name, r.logLevel = some name →
    name = "" ∨ ∃ level, Log.levelNames.lookup (Log.capitals name) = some level

/-- What keeps a request from an answer. -/
inductive Escapes (r : Request) (host : Host ρ) (expression : String) : Escape → Prop
  /-- The path of the context that is asked for names no file on any system. -/
  | unnamed {path} (hcontext : r.context = some path) (hnull : '\x00' ∈ (Files.normal path).toList) :
      Escapes r host expression (.context Files.nullProblem)
  /-- The problem with its document is foreign to data. -/
  | foreign {path bytes problem} (hcontext : r.context = some path)
      (hfile : host.files.read (Files.normal path) = .ok bytes)
      (hread : host.read bytes = .error problem) (hforeign : problem.isForeign = true) :
      Escapes r host expression (.context problem)
  /-- The reader comes to begin a primary phrase in front of a numeral with too many digits. -/
  | oversized {ctx t rest digits} (hload : r.load host.load {} = .ok ctx)
      (htokens : r.tokens = false)
      (hroom : ∀ s, (r.reply host ctx expression).result ≠ .error .exhausted s)
      (hreach : Reaches ctx (r.reply host ctx expression).prepared.tokens (t :: rest))
      (ht : t.Oversized digits) :
      Escapes r host expression (.stopped (.failed (.excessDigits digits)))
  /-- There is no room for the calls. -/
  | exhausted {ctx s} (hload : r.load host.load {} = .ok ctx) (htokens : r.tokens = false)
      (hroom : host.room < 16 * (r.reply host ctx expression).prepared.tokens.length)
      (hreply : (r.reply host ctx expression).result = .error .exhausted s) :
      Escapes r host expression (.stopped .exhausted)
  /-- The term has too many levels. -/
  | unlistable {ctx x s} (hload : r.load host.load {} = .ok ctx) (htokens : r.tokens = false)
      (hreply : (r.reply host ctx expression).result = .ok x s) (hlevels : host.levels < x.height) :
      Escapes r host expression .unlistable

/-- The answers to a request: the tokens or the term that are asked for, or one last line that says
why there are none. -/
inductive Answers (r : Request) (host : Host ρ) (expression : String) : Output → Prop
  | tokens {ctx lines} (hload : r.load host.load {} = .ok ctx) (htokens : r.tokens = true) :
      Answers r host expression
        ⟨0, [" ".intercalate (r.reply host ctx expression).prepared.tokens], lines⟩
  | term {ctx x s lines} (hload : r.load host.load {} = .ok ctx) (htokens : r.tokens = false)
      (hreply : (r.reply host ctx expression).result = .ok x s) :
      Answers r host expression ⟨0, [x.listing], lines⟩
  | rejected {ctx rejection s lines} (hload : r.load host.load {} = .ok ctx)
      (htokens : r.tokens = false)
      (hreply : (r.reply host ctx expression).result = .error (.failed (.rejected rejection)) s) :
      Answers r host expression ⟨1, [], lines ++ [failureMessage rejection.message]⟩
  | unloaded {problem} (hload : r.load host.load {} = .error problem) :
      Answers r host expression ⟨1, [], [failureMessage problem.text]⟩

variable {r : Request} {host : Host ρ} {expression : String} {ctx : Context} {escape : Escape}

theorem load_default (r : Request) (load : String → Except Problem Context) :
    r.load load {} = match r.context with
      | some path => load (Files.normal path)
      | none => .ok .standard :=
  rfl

/-- A known level is not reserved. -/
theorem HasKnownLevel.exists_setup (h : r.HasKnownLevel) :
    ∃ setup, Log.Setup.ofSettings (r.amended {}) = .ok setup := by
  have hname : Log.reserved.lookup (Log.capitals (r.amended {}).logLevel) = none := by
    have hdefault : Log.reserved.lookup (Log.capitals ({} : Settings).logLevel) = none := rfl
    have hlevel : (r.amended {}).logLevel = r.levelName {} := rfl
    rw [hlevel, levelName]
    cases hasked : r.logLevel with
    | none => exact hdefault
    | some name =>
      dsimp only
      split
      case isTrue => exact hdefault
      case isFalse hempty =>
        obtain rfl | ⟨level, hlookup⟩ := h name hasked
        · exact absurd rfl hempty
        · exact Log.lookup_reserved hlookup
  exact ⟨_, by rw [Log.Setup.ofSettings, hname]⟩

section Loading

variable (hV : host.validator.Lawful)

include hV

theorem wellNamed_of_load (hload : r.load host.load {} = .ok ctx) : ctx.WellNamed := by
  rw [load_default] at hload
  cases hcontext : r.context with
  | none =>
    rw [hcontext] at hload
    obtain rfl := Except.ok.inj hload
    exact Context.wellNamed_standard
  | some path =>
    rw [hcontext] at hload
    exact Context.wellNamed_of_load hV hload

theorem load_foreign_iff {problem : Problem} (hforeign : problem.isForeign = true) :
    r.load host.load {} = .error problem ↔ ∃ path, r.context = some path ∧
      ('\x00' ∈ (Files.normal path).toList ∧ problem = Files.nullProblem ∨
        ∃ bytes, host.files.read (Files.normal path) = .ok bytes ∧
          host.read bytes = .error problem) := by
  rw [load_default]
  cases r.context with
  | none => simp
  | some path =>
    simp only [Option.some.injEq, exists_eq_left']
    exact Context.load_foreign_iff hV hforeign

/-- Where the context cannot be loaded, only a foreign problem keeps from an answer. -/
theorem escapes_of_load_error {problem : Problem} (hload : r.load host.load {} = .error problem) :
    r.Escapes host expression escape ↔ problem.isForeign = true ∧ escape = .context problem := by
  constructor
  · intro h
    cases h with
    | unnamed hcontext hnull =>
      have hnamed := (load_foreign_iff hV rfl).2 ⟨_, hcontext, .inl ⟨hnull, rfl⟩⟩
      obtain rfl := Except.error.inj (hload.symm.trans hnamed)
      exact ⟨rfl, rfl⟩
    | foreign hcontext hfile hread hforeign =>
      have hnamed := (load_foreign_iff hV hforeign).2 ⟨_, hcontext, .inr ⟨_, hfile, hread⟩⟩
      obtain rfl := Except.error.inj (hload.symm.trans hnamed)
      exact ⟨hforeign, rfl⟩
    | oversized hload' | exhausted hload' | unlistable hload' => cases hload.symm.trans hload'
  · rintro ⟨hforeign, rfl⟩
    obtain ⟨path, hcontext, ⟨hnull, rfl⟩ | ⟨bytes, hfile, hread⟩⟩ :=
      (load_foreign_iff hV hforeign).1 hload
    · exact .unnamed hcontext hnull
    · exact .foreign hcontext hfile hread hforeign

/-- In a context that has been loaded, the reply and the levels of the term decide. -/
theorem escapes_of_load_ok (hload : r.load host.load {} = .ok ctx) :
    r.Escapes host expression escape ↔ r.tokens = false ∧
      match (r.reply host ctx expression).result with
      | .ok x _ => host.levels < x.height ∧ escape = .unlistable
      | .error (.failed (.rejected _)) _ => False
      | .error stop _ => escape = .stopped stop := by
  have hctx : ((r.amended {}).sessionIn host.sources ctx).context.WellNamed :=
    wellNamed_of_load hV hload
  have hexcess (d : Nat) :=
    Session.result_excess_iff host.sources.chooser .terms host.room none () hctx expression d
  constructor
  · intro h
    cases h with
    | unnamed hcontext hnull =>
      cases hload.symm.trans ((load_foreign_iff hV rfl).2 ⟨_, hcontext, .inl ⟨hnull, rfl⟩⟩)
    | foreign hcontext hfile hread hforeign =>
      cases hload.symm.trans
        ((load_foreign_iff hV hforeign).2 ⟨_, hcontext, .inr ⟨_, hfile, hread⟩⟩)
    | oversized hload' htokens hroom hreach ht =>
      obtain rfl := Except.ok.inj (hload.symm.trans hload')
      obtain ⟨s, hreply⟩ := (hexcess _).2 ⟨hroom, _, _, hreach, ht⟩
      exact ⟨htokens, by rw [reply, hreply]⟩
    | exhausted hload' htokens hroom hreply =>
      obtain rfl := Except.ok.inj (hload.symm.trans hload')
      exact ⟨htokens, by rw [hreply]⟩
    | unlistable hload' htokens hreply hlevels =>
      obtain rfl := Except.ok.inj (hload.symm.trans hload')
      exact ⟨htokens, by rw [hreply]; exact ⟨hlevels, rfl⟩⟩
  · rintro ⟨htokens, hstop⟩
    obtain ⟨x, s, hreply⟩ | ⟨rejection, s, hreply⟩ | ⟨d, s, hreply⟩ | ⟨hroom, s, hreply⟩ :=
      Session.result_cases host.sources.chooser .terms host.room expression none () hctx
    · rw [reply, hreply] at hstop
      obtain ⟨hlevels, rfl⟩ := hstop
      exact .unlistable hload htokens hreply hlevels
    · rw [reply, hreply] at hstop
      exact hstop.elim
    · rw [reply, hreply] at hstop
      obtain rfl : escape = _ := hstop
      obtain ⟨hexhausted, t, rest, hreach, ht⟩ := (hexcess d).1 ⟨s, hreply⟩
      exact .oversized hload htokens hexhausted hreach ht
    · rw [reply, hreply] at hstop
      obtain rfl : escape = _ := hstop
      exact .exhausted hload htokens hroom hreply

end Loading

end Request

section Run

variable {r : Request} {host : Host ρ} {expression : String} {ctx : Context} {args : List String}

/-- In its context a request is answered, unless it escapes. -/
theorem showIn_answers_or_escapes (setup : Log.Setup) (hV : host.validator.Lawful)
    (hload : r.load host.load {} = .ok ctx) :
    (∃ output, showIn host setup (r.amended {}) ctx expression r.tokens = .finished output ∧
      r.Answers host expression output ∧ ∀ escape, ¬ r.Escapes host expression escape) ∨
    ∃ escape, showIn host setup (r.amended {}) ctx expression r.tokens = .escaped escape ∧
      ∀ other, r.Escapes host expression other ↔ other = escape := by
  have hescapes (escape : Escape) : r.Escapes host expression escape ↔ _ :=
    Request.escapes_of_load_ok hV hload
  cases htokens : r.tokens with
  | true =>
    refine .inl ⟨_, rfl, .tokens hload htokens, fun escape h => ?_⟩
    cases htokens.symm.trans ((hescapes escape).1 h).1
  | false =>
    have hshown : showIn host setup (r.amended {}) ctx expression false =
        showReply host setup expression (r.reply host ctx expression) := rfl
    rw [hshown, showReply]
    simp only [htokens, true_and] at hescapes
    cases hreply : (r.reply host ctx expression).result with
    | ok x s =>
      simp only [hreply] at hescapes
      dsimp only
      by_cases hlevels : x.height ≤ host.levels
      · rw [if_pos hlevels]
        exact .inl ⟨_, rfl, .term hload htokens hreply,
          fun escape h => Nat.not_lt_of_le hlevels ((hescapes escape).1 h).1⟩
      · rw [if_neg hlevels]
        refine .inr ⟨_, rfl, fun other => ?_⟩
        rw [hescapes, and_iff_right (Nat.lt_of_not_le hlevels)]
    | error stop s =>
      simp only [hreply] at hescapes
      -- of all stops, only rejections are turned into messages
      match stop with
      | .failed (.rejected rejection) =>
        exact .inl ⟨_, rfl, .rejected hload htokens hreply, fun escape => (hescapes escape).1⟩
      | .failed (.excessDigits d) => exact .inr ⟨_, rfl, hescapes⟩
      | .malformed t => exact .inr ⟨_, rfl, hescapes⟩
      | .exhausted => exact .inr ⟨_, rfl, hescapes⟩

/-- Under the settings that hold where none is made, with a level of the log that is known, a run
is answered unless it escapes, and there is one way for it to escape at most. -/
theorem run_answers_or_escapes (hV : host.validator.Lawful)
    (hargs : request args = .ok (expression, r)) (hlevel : r.HasKnownLevel) :
    (∃ output, run host (.ok {}) args = .finished output ∧ r.Answers host expression output ∧
      ∀ escape, ¬ r.Escapes host expression escape) ∨
    ∃ escape, run host (.ok {}) args = .escaped escape ∧
      ∀ other, r.Escapes host expression other ↔ other = escape := by
  obtain ⟨setup, hsetup⟩ := hlevel.exists_setup
  rw [run_eq hargs, perform_eq, hsetup]
  dsimp only
  cases hload : r.load host.load {} with
  | ok ctx => exact showIn_answers_or_escapes setup hV hload
  | error problem =>
    have hescapes (escape : Escape) : r.Escapes host expression escape ↔ _ :=
      Request.escapes_of_load_error hV hload
    dsimp only
    unfold loadOutcome
    by_cases hforeign : problem.isForeign = true
    · rw [if_pos hforeign]
      exact .inr ⟨_, rfl, fun other => (hescapes other).trans (and_iff_right hforeign)⟩
    · rw [if_neg hforeign]
      exact .inl ⟨_, rfl, .unloaded hload, fun escape h => hforeign ((hescapes escape).1 h).1⟩

/-- Where no settings are made and the level of the log is a known one, every run is answered,
unless something keeps it from an answer; then it escapes, and it escapes in no other way. -/
theorem run_answers (hV : host.validator.Lawful) (hargs : request args = .ok (expression, r))
    (hlevel : r.HasKnownLevel) :
    ((∀ escape, ¬ r.Escapes host expression escape) →
      ∃ output, run host (.ok {}) args = .finished output ∧ r.Answers host expression output) ∧
    ∀ escape, run host (.ok {}) args = .escaped escape ↔ r.Escapes host expression escape := by
  obtain ⟨output, hrun, hanswers, hnone⟩ | ⟨escape, hrun, hescapes⟩ :=
    run_answers_or_escapes hV hargs hlevel
  · refine ⟨fun _ => ⟨output, hrun, hanswers⟩, fun escape => ?_⟩
    rw [hrun]
    exact iff_of_false nofun (hnone escape)
  · refine ⟨fun hnone => absurd ((hescapes escape).2 rfl) (hnone escape), fun other => ?_⟩
    rw [hrun, hescapes, Outcome.escaped.injEq, eq_comm]

end Run

/-- A file that is no text stands in the place of the context. -/
theorem run_answers_undecodable :
    ∃ text, run { oneContext with files := fun _ => .contents ⟨#[255]⟩ } (.ok {})
        ["x", "--context", "ctx.yaml", "--log-level=Info"] =
      .escaped (.context (.foreign "UnicodeDecodeError" text)) := by
  let r : Request :=
    { expression := some "x", context := some "ctx.yaml", logLevel := some "Info" }
  have hlevel : r.HasKnownLevel := by
    rintro name hname
    cases hname
    exact .inr ⟨_, rfl⟩
  exact ⟨_, ((run_answers Validator.lawful_standard rfl hlevel).2 _).2 (.foreign rfl rfl rfl rfl)⟩

section Numeral

/-- An argument that starts with no dash is the expression. -/
theorem request_expression {text : String} (h : text.toList.head? ≠ some '-') :
    request [text] = .ok (text, { expression := some text }) := by
  have hdashes : text ≠ "--" := by
    rintro rfl
    exact h rfl
  have hclassify : classify text = .ok (.value text) := by
    rw [classify]
    exact if_pos (.inl h)
  have hall : classifyAll [text] = .ok [.value text] := by
    rw [classifyAll, hclassify]
    · rfl
    · exact hdashes
  rw [request, hall]
  rfl

theorem head?_ne_dash_of_isInteger {t : Token} (h : t.isInteger = true) :
    t.toList.head? ≠ some '-' := by
  intro hhead
  obtain ⟨cs, hcs⟩ := List.head?_eq_some_iff.1 hhead
  rw [Token.isInteger, hcs] at h
  cases h

/-- An expression that is an integer numeral beyond the digit limit gets no answer. -/
theorem run_numeral {host : Host ρ} {n : Nat} (hV : host.validator.Lawful)
    (hroom : 32 ≤ host.room) (hn : Token.digitLimit < (toString n).length) :
    run host (.ok {}) [toString n] =
      .escaped (.stopped (.failed (.excessDigits (toString n).length))) := by
  let r : Request := { expression := some (toString n) }
  have hargs : request [toString n] = .ok (toString n, r) :=
    request_expression (head?_ne_dash_of_isInteger (Token.isInteger_toString n))
  have hload : r.load host.load {} = .ok .standard := rfl
  have hlevel : r.HasKnownLevel := nofun
  obtain ⟨s, hread⟩ := Expression.parse_oversized Context.standard .terms true host.sources.chooser
    host.sources.shared () hn
  have hreply : (r.reply host .standard (toString n)).result =
      .error (.failed (.excessDigits (toString n).length)) s := by
    have hctx : ((r.amended {}).sessionIn host.sources .standard).context.WellNamed :=
      Context.wellNamed_standard
    exact (Session.parse_integer_result host.sources.chooser .terms host.room none () hctx hroom
      n).trans (congrArg Stop.ofResult hread)
  have hescapes : r.Escapes host (toString n)
      (.stopped (.failed (.excessDigits (toString n).length))) :=
    (Request.escapes_of_load_ok hV hload).2 ⟨rfl, by rw [hreply]⟩
  obtain ⟨-, -, -, hnone⟩ | ⟨escape, hrun, hall⟩ := run_answers_or_escapes hV hargs hlevel
  · exact absurd hescapes (hnone _)
  · rw [hrun, (hall _).1 hescapes]

/-- The least number whose numeral is beyond the digit limit. -/
theorem numeral_escapes :
    run oneContext (.ok {}) [toString (10 ^ Token.digitLimit)] =
      .escaped (.stopped (.failed (.excessDigits
        (toString (10 ^ Token.digitLimit)).length))) := by
  refine run_numeral Validator.lawful_standard (by decide) (Nat.lt_of_not_le fun hle => ?_)
  rw [Nat.toString_eq_ofList_toDigits, String.length_ofList,
    Nat.length_toDigits_le_iff (by decide) (by decide)] at hle
  exact Nat.lt_irrefl _ hle

end Numeral

end Command

end TermReader
