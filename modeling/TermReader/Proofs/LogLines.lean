import TermReader.Command.Run
import TermReader.Proofs.OneLine
import TermReader.Proofs.Lexemes
import TermReader.Proofs.Lossless
import TermReader.Proofs.Groups
import TermReader.Proofs.Rejections
import TermReader.Proofs.Replies

/-!
Every log record about an expression is one line, whatever the expression. In JSON that is so of
any record. In plain text most of a message is quoted, but the operator that was drawn, the token
that was rejected and the name of a function are not: a line feed ends a token and is dropped, so
no token has one, and neither has a name, because names are identifiers.
-/

namespace TermReader

open Text

namespace Log

theorem Level.isLine_name (level : Int) : IsLine (Level.name level) := by
  unfold Level.name
  split
  · next name hname =>
    obtain ⟨before, after, hnames, -⟩ := List.lookup_eq_some_iff.1 hname
    have hall : ∀ entry ∈ Level.names, IsLine entry.2 := by decide
    exact hall (level, name) (by simp [hnames])
  · exact isLine_append.2 ⟨by decide, isLine_toString level⟩

namespace Record

theorem isLine_jsonLine (time : String) (r : Record) : IsLine (r.jsonLine time) :=
  Value.isLine_json _

/-- A record that can be shown in plain text on one line. -/
structure Plain (r : Record) : Prop where
  source : IsLine r.source
  message : IsLine r.message
  expression : ∀ v, r.fields .expression = some v → IsLine v.listing
  problem : r.problem = none

theorem Plain.isLine_textLine {r : Record} (h : r.Plain) : IsLine r.textLine := by
  have hhead : IsLine (Level.name r.level ++ " " ++ r.source ++ ": " ++ r.message) := by
    simp only [isLine_append]
    exact ⟨⟨⟨⟨Level.isLine_name _, by decide⟩, h.source⟩, by decide⟩, h.message⟩
  unfold textLine
  rw [h.problem]
  dsimp only
  split
  · exact hhead
  · exact hhead
  · next v _ hv =>
    exact isLine_append.2
      ⟨isLine_append.2 ⟨isLine_append.2 ⟨hhead, by decide⟩, h.expression v hv⟩, by decide⟩

/-- In either format. -/
theorem Plain.isLine_line {r : Record} (h : r.Plain) (setup : Setup) (time : String) :
    IsLine (setup.line time r) := by
  unfold Setup.line
  cases setup.format with
  | text => exact h.isLine_textLine
  | json => exact isLine_jsonLine time r

end Record

end Log

namespace Token

variable {ctx : Context} {t : Token}

theorem isLine_of_mem_scan {source : String} (ht : t ∈ scan source) : IsLine t := by
  rcases List.mem_append.1 ht with ht | ht
  · obtain ⟨w, hw, rfl⟩ := exists_lexeme_of_mem_words ht
    rw [isLine_ofList]
    exact fun hfeed => absurd (hw.not_isBlank _ hfeed) (by decide)
  · rw [List.mem_singleton.1 ht]
    decide

/-- The pieces of a token have no other characters than the token. -/
theorem isLine_of_mem_split {tokens : List Token} (h : ∀ t ∈ tokens, IsLine t)
    (ht : t ∈ split ctx tokens) : IsLine t := by
  obtain ⟨whole, hwhole, hpiece⟩ := List.mem_flatMap.1 ht
  intro hfeed
  apply h whole hwhole
  rw [← flatMap_pieces ctx whole]
  exact List.mem_flatMap.2 ⟨t, hpiece, hfeed⟩

theorem isLine_of_isArithmetic (h : isArithmetic t = true) : IsLine t := by
  simp only [isArithmetic, List.contains_iff_mem, List.mem_cons, List.not_mem_nil, or_false] at h
  rcases h with rfl | rfl | rfl | rfl <;> decide

theorem Decomposes.mem_of_literal {tokens : List Token} {parts : List Segment}
    (h : Decomposes tokens parts) (ht : .literal t ∈ parts) : t ∈ tokens := by
  induction h with
  | nil => cases ht
  | literal _ _ ih =>
    rcases List.mem_cons.1 ht with heq | hmem
    · cases heq
      exact List.mem_cons_self
    · exact List.mem_cons_of_mem _ (ih hmem)
  | group _ _ ih =>
    rcases List.mem_cons.1 ht with heq | hmem
    · cases heq
    · exact List.mem_append_right _ (ih hmem)

section Resolves

variable {parts : List Segment} {choices : List Choice} {tokens : List Token}

/-- A token stands for itself or was drawn. -/
theorem Resolves.mem_cases (h : Resolves parts choices tokens) (ht : t ∈ tokens) :
    .literal t ∈ parts ∨ ∃ c ∈ choices, c.chosen = t := by
  induction h with
  | nil => cases ht
  | literal _ ih =>
    rcases List.mem_cons.1 ht with rfl | hmem
    · exact .inl List.mem_cons_self
    · exact (ih hmem).imp_left (List.mem_cons_of_mem _)
  | @group g op parts choices tokens _ _ ih =>
    rcases List.mem_cons.1 ht with rfl | hmem
    · exact .inr ⟨⟨g, t⟩, List.mem_cons_self, rfl⟩
    · refine (ih hmem).imp (List.mem_cons_of_mem _) ?_
      exact fun ⟨c, hc, hchosen⟩ => ⟨c, List.mem_cons_of_mem _ hc, hchosen⟩

/-- What was drawn is an operator of the group that it was drawn for. -/
theorem Resolves.mem_operators (h : Resolves parts choices tokens) {c : Choice}
    (hc : c ∈ choices) : .group c.alternatives ∈ parts ∧ c.chosen ∈ c.alternatives.operators := by
  induction h with
  | nil => cases hc
  | literal _ ih => exact (ih hc).imp_left (List.mem_cons_of_mem _)
  | group hop _ ih =>
    rcases List.mem_cons.1 hc with rfl | hmem
    · exact ⟨List.mem_cons_self, hop⟩
    · exact (ih hmem).imp_left (List.mem_cons_of_mem _)

end Resolves

section Resolving

variable {ρ : Type} {tokens : List Token} (chooser : Chooser ρ) (random : ρ)

theorem isArithmetic_chosen {c : Choice} (hc : c ∈ (resolve chooser tokens random).1.choices) :
    isArithmetic c.chosen = true := by
  obtain ⟨hpart, hchosen⟩ :=
    (resolveSegments_resolves chooser (segments tokens) random).mem_operators hc
  exact isArithmetic_of_mem_segments hpart _ hchosen

theorem isLine_of_mem_resolve (h : ∀ t ∈ tokens, IsLine t)
    (ht : t ∈ (resolve chooser tokens random).1.tokens) : IsLine t := by
  rcases (resolveSegments_resolves chooser (segments tokens) random).mem_cases ht with
    hliteral | ⟨c, hc, rfl⟩
  · exact h t ((segments_decomposes tokens).mem_of_literal hliteral)
  · exact isLine_of_isArithmetic (isArithmetic_chosen chooser random hc)

end Resolving

end Token

namespace Context

/-- Names are identifiers, and identifiers have no line feeds. -/
theorem WellNamed.isLine {ctx : Context} {name : String} (hctx : ctx.WellNamed)
    (h : ctx.isFunction name = true) : IsLine name := by
  have hword := Token.isWord_of_isIdentifier (hctx.isIdentifier_of_isFunction h)
  intro hfeed
  exact absurd (Token.not_blank_of_isPlain (hword.2 _ hfeed)).1 (by decide)

end Context

/-- Nothing but a function of the context is described in detail. -/
theorem Cursor.Fails.isLine_detail {ctx : Context} {c d : Cursor} {r : Rejection}
    (hctx : ctx.WellNamed) (h : c.Fails ctx d (.rejected r)) :
    ∀ detail ∈ r.detail, IsLine detail := by
  generalize hr : Failure.rejected r = failure at h
  cases h with
  | missing | ended | unopened =>
    cases hr
    exact fun _ hdetail => nomatch hdetail
  | uncalled hname =>
    cases hr
    rintro detail ⟨⟩
    exact isLine_append.2 ⟨by decide, hctx.isLine hname⟩
  | @miscounted _ _ count hname =>
    cases hr
    rintro detail ⟨⟩
    simp only [callDetail, isLine_append]
    exact ⟨⟨⟨⟨by decide, hctx.isLine hname⟩, by decide⟩, isLine_repr count⟩, by decide⟩
  | excess => cases hr

theorem Rejection.isLine_message {r : Rejection} (htoken : IsLine r.token)
    (hdetail : ∀ detail ∈ r.detail, IsLine detail) : IsLine r.message := by
  have hreason : IsLine r.reason.text := by cases r.reason <;> decide
  have hposition := isLine_repr r.position
  unfold message
  cases hsome : r.detail with
  | none => simp +decide [hreason, hposition, htoken]
  | some detail => simp +decide [hreason, hposition, htoken, hdetail detail hsome]

namespace Log

section Stages

variable {source message : String} {fields : Field → Option Value}

theorem plain_stage (hsource : IsLine source) (hmessage : IsLine message)
    (hexpression : ∀ v, fields .expression = some v → IsLine v.listing) :
    (stage source message fields).Plain :=
  ⟨hsource, hmessage, hexpression, rfl⟩

/-- The expression is quoted where a record carries it. -/
theorem isLine_expression {v : Value} (h : some (.text source) = some v) : IsLine v.listing := by
  obtain rfl := Option.some.inj h
  exact isLine_quoted source

theorem plain_scanRecord (source : String) (scanned : List Token) :
    (scanRecord source scanned).Plain := by
  refine plain_stage (by decide) ?_ fun _ h => nomatch h
  simp +decide [isLine_quoted, isLine_repr]

theorem plain_choiceRecord {c : Token.Choice} (hc : IsLine c.chosen) :
    (choiceRecord c).Plain := by
  refine plain_stage (by decide) ?_ fun _ h => nomatch h
  simp +decide [isLine_quotedList, hc]

theorem plain_readRecord (source : String) (tokens : List Token) :
    (readRecord source tokens).Plain :=
  plain_stage (by decide) (isLine_append.2 ⟨by decide, isLine_quotedList tokens⟩)
    fun _ => isLine_expression

theorem plain_rejectionRecord {r : Rejection} (hr : IsLine r.message) (source : String) :
    (rejectionRecord source r).Plain :=
  plain_stage (by decide) (isLine_append.2 ⟨by decide, hr⟩) fun _ => isLine_expression

theorem plain_rejectedRecord (source : String) : (Command.rejectedRecord source).Plain where
  source := (by decide : IsLine "mathruntime.cli")
  message := (by decide : IsLine "Rejected expression")
  expression _ := isLine_expression
  problem := rfl

end Stages

section Parsing

variable {ρ σ τ : Type} (ctx : Context) (b : Builder σ τ) (splits : Bool) (chooser : Chooser ρ)
  (source : String) (random : ρ) (s : σ)

theorem isLine_prepared :
    let prepared := (Expression.prepare ctx splits chooser source random).1
    (∀ t ∈ prepared.tokens, IsLine t) ∧ ∀ c ∈ prepared.choices, IsLine c.chosen := by
  have hscan : ∀ t ∈ Token.scan source, IsLine t := fun _ => Token.isLine_of_mem_scan
  unfold Expression.prepare
  constructor
  · refine fun t => Token.isLine_of_mem_resolve chooser random ?_
    split
    · exact fun _ => Token.isLine_of_mem_split hscan
    · exact hscan
  · exact fun c hc => Token.isLine_of_isArithmetic (Token.isArithmetic_chosen chooser random hc)

variable {ctx}

theorem isLine_rejection (hctx : ctx.WellNamed) {r : Rejection} {s' : σ}
    (h : (Expression.parse ctx b splits chooser source random s).result =
      .error (.rejected r) s') : IsLine r.message := by
  have htokens := (isLine_prepared ctx splits chooser source random).1
  unfold Expression.parse at h
  rw [Expression.prepare_words] at h htokens
  obtain ⟨⟨hlt, htoken⟩, -⟩ := Grammar.pointsInto_of_read hctx h
  refine Rejection.isLine_message ?_ ?_
  · rw [← htoken]
    exact htokens _ (List.getElem_mem hlt)
  · obtain ⟨d, -, hfail | ⟨-, hr⟩⟩ := Grammar.fails_of_read h
    · exact hfail.isLine_detail hctx
    · obtain rfl := Failure.rejected.inj hr
      exact fun _ hdetail => nomatch hdetail

theorem isLine_of_mem_reading {prepared : Prepared} {rejection? : Option Rejection}
    (hchoices : ∀ c ∈ prepared.choices, IsLine c.chosen)
    (hrejection : ∀ r ∈ rejection?, IsLine r.message) :
    ∀ r ∈ readingRecords source prepared rejection? ++ [Command.rejectedRecord source],
      ∀ setup time, IsLine (Setup.line setup time r) := by
  intro r hr setup time
  refine Record.Plain.isLine_line ?_ setup time
  simp only [readingRecords, preparedRecords, List.mem_append, List.mem_cons, List.mem_map,
    Option.mem_toList, List.not_mem_nil, or_false] at hr
  rcases hr with (((rfl | ⟨c, hc, rfl⟩) | rfl) | ⟨rejection, hrejected, rfl⟩) | rfl
  · exact plain_scanRecord source _
  · exact plain_choiceRecord (hchoices c hc)
  · exact plain_readRecord source _
  · exact plain_rejectionRecord (hrejection rejection hrejected) _
  · exact plain_rejectedRecord source

/-- Every record about an expression is one line in either format, whatever the expression is
and however it is processed, be it the record of its rejection. -/
theorem isLine_of_mem_records (hctx : ctx.WellNamed) :
    let parsed := Expression.parse ctx b splits chooser source random s
    ∀ r ∈ parsedRecords source parsed ++ [Command.rejectedRecord source], ∀ setup time,
      IsLine (Setup.line setup time r) := by
  refine isLine_of_mem_reading source (isLine_prepared ctx splits chooser source random).2
    fun rejection hrejected => ?_
  split at hrejected
  · next r' s' hresult =>
    obtain rfl := Option.some.inj hrejected
    exact isLine_rejection b splits chooser source random s hctx hresult
  · cases hrejected

end Parsing

section Replies

variable {ρ σ τ : Type} {session : Session ρ}

/-- So is every record about an expression that a session has replied to. -/
theorem isLine_of_mem_replyRecords (hctx : session.context.WellNamed) (chooser : Chooser ρ)
    (b : Builder σ τ) (room : Nat) (source : String) (splits : Option Bool) (state : σ) :
    let reply := (session.parse chooser b room source splits state).1
    ∀ r ∈ readingRecords source reply.prepared reply.rejection? ++
        [Command.rejectedRecord source], ∀ setup time, IsLine (Setup.line setup time r) := by
  intro reply
  have hchoices : ∀ c ∈ reply.prepared.choices, IsLine c.chosen :=
    (isLine_prepared session.context (splits.getD session.splits) chooser source session.random).2
  refine isLine_of_mem_reading source hchoices fun rejection hrejected => ?_
  obtain ⟨s', hresult⟩ := Session.Reply.exists_result_of_mem hrejected
  obtain ⟨-, hread | ⟨-, s'', hgiven⟩⟩ :=
    Session.parse_reply chooser b room source splits state hctx
  · have hparsed := Stop.ofResult_eq_error_iff.1 (hread.symm.trans hresult)
    exact isLine_rejection b _ chooser source session.random state hctx hparsed
  · cases hgiven.symm.trans hresult

end Replies

/-- A function without its brackets, in an expression of two lines. -/
theorem isLine_records_uncalled :
    (Expression.parse .standard .terms true .first "eye\n+ 1" () ()).result =
        .error (.rejected ⟨.expectedCall, "+", 1, some "function eye"⟩) () ∧
      Context.standard.WellNamed ∧
      IsLine (rejectionRecord "eye\n+ 1"
        ⟨.expectedCall, "+", 1, some "function eye"⟩).textLine := by
  have hresult : (Expression.parse .standard .terms true .first "eye\n+ 1" () ()).result =
      .error (.rejected ⟨.expectedCall, "+", 1, some "function eye"⟩) () := by
    cbv
  refine ⟨hresult, Context.wellNamed_standard, ?_⟩
  refine isLine_of_mem_records .terms true .first "eye\n+ 1" () ()
    Context.wellNamed_standard (rejectionRecord "eye\n+ 1" _) ?_ ⟨Level.debug, .text⟩ ""
  simp [parsedRecords, readingRecords, hresult]

end Log

end TermReader
