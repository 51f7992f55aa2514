import TermReader.Session.Basic
import TermReader.Proofs.Descent
import TermReader.Proofs.Wrapping

/-!
What a session replies. It reads the tokens of an expression from the first one on, wherever it has
stopped before, and comes to what the reader comes to. Only a session that has less room than
sixteen calls for every token may give up.
-/

namespace TermReader

theorem Stop.ofResult_eq_error_iff {σ α : Type} {read : EStateM.Result Failure σ α} {e : Failure}
    {s : σ} : ofResult read = .error (.failed e) s ↔ read = .error e s := by
  cases read <;> simp [ofResult]

namespace Session

theorem Reply.exists_result_of_mem {σ τ : Type} {reply : Reply σ τ} {r : Rejection}
    (h : r ∈ reply.rejection?) :
    ∃ s', reply.result = .error (.failed (.rejected r)) s' := by
  unfold rejection? at h
  split at h
  · next s' hresult =>
    obtain rfl := Option.some.inj h
    exact ⟨s', hresult⟩
  · cases h

variable {ρ σ τ : Type} (session : Session ρ)

theorem tokens_receive (tokens : List Token) : (session.receive tokens).tokens = tokens := by
  simp [Session.tokens, receive]

theorem stream_receive (tokens : List Token) :
    (session.receive tokens).stream = ⟨tokens, 0, session.lookahead⟩ := by
  rw [stream, tokens_receive]
  rfl

variable (chooser : Chooser ρ) (b : Builder σ τ) (room : Nat) (source : String)
  (splits : Option Bool) (state : σ)

/-- The expression as the reader alone would read it. -/
def parsed : Expression.Parsed ρ σ τ :=
  Expression.parse session.context b (splits.getD session.splits) chooser source session.random
    state

/-- Parsing starts at the first token with the token there in sight, so neither the position nor
the token that an earlier expression has left behind is looked at. -/
theorem parse_eq : (session.parse chooser b room source splits state).1 =
    ((start session.context session.random session.splits).parse chooser b room source splits
      state).1 := by
  unfold parse
  dsimp only
  rw [stream_receive, stream_receive]
  exact congrArg (fun run => Reply.mk _ (Descent.outcome run)) (Grammar.descend_start b _ _ _ _)

theorem endMark_mem_tokens :
    Token.endMark ∈ (session.parsed chooser b source splits state).prepared.tokens := by
  rw [parsed, Expression.parse]
  dsimp only
  rw [Expression.prepare_words]
  exact List.mem_append_right _ (List.mem_singleton_self _)

theorem parse_result_eq : (session.parse chooser b room source splits state).1.result =
    Descent.outcome (Grammar.descend session.context b room
      (⟨(session.parsed chooser b source splits state).prepared.tokens, 0, session.lookahead⟩,
        state)) := by
  unfold parse
  dsimp only
  rw [stream_receive]
  rfl

variable {session}

/-- The reply is what the reader comes to. The session may give up instead, but only for want of
room. -/
theorem parse_reply (hctx : session.context.WellNamed) :
    let parsed := session.parsed chooser b source splits state
    let reply := (session.parse chooser b room source splits state).1
    reply.prepared = parsed.prepared ∧
      (reply.result = Stop.ofResult parsed.result ∨
        room < 16 * parsed.prepared.tokens.length ∧ ∃ s', reply.result = .error .exhausted s') := by
  intro parsed reply
  refine ⟨rfl, ?_⟩
  have hend := session.endMark_mem_tokens chooser b source splits state
  simp only [reply, parse_result_eq]
  exact Grammar.descend_eq b hctx hend room session.lookahead state

/-- A session comes to a value, a rejection or the digit limit, or to the end of its room. -/
theorem result_cases (hctx : session.context.WellNamed) :
    let reply := (session.parse chooser b room source splits state).1
    (∃ x s', reply.result = .ok x s') ∨
      (∃ r s', reply.result = .error (.failed (.rejected r)) s') ∨
      (∃ d s', reply.result = .error (.failed (.excessDigits d)) s') ∨
      room < 16 * reply.prepared.tokens.length ∧ ∃ s', reply.result = .error .exhausted s' := by
  intro reply
  obtain ⟨hprepared, hread | hgiven⟩ := parse_reply chooser b room source splits state hctx
  · have hresult : reply.result = Stop.ofResult _ := hread
    rw [hresult]
    generalize (session.parsed chooser b source splits state).result = read
    cases read with
    | ok x s' => exact .inl ⟨x, s', rfl⟩
    | error e s' =>
      cases e with
      | rejected r => exact .inr (.inl ⟨r, s', rfl⟩)
      | excessDigits d => exact .inr (.inr (.inl ⟨d, s', rfl⟩))
  · exact .inr (.inr (.inr hgiven))

/-- With room for sixteen calls a token the session does not give up. -/
theorem parse_result (hctx : session.context.WellNamed)
    (hroom : 16 * (session.parsed chooser b source splits state).prepared.tokens.length ≤ room) :
    (session.parse chooser b room source splits state).1.result =
      Stop.ofResult (session.parsed chooser b source splits state).result :=
  (parse_reply chooser b room source splits state hctx).2.resolve_right
    fun h => Nat.not_lt_of_le hroom h.1

end Session

end TermReader
