import TermReader.Proofs.EndMark
import TermReader.Proofs.Wrapping

/-!
What a rejection says is so. It names a token of the processed expression with its position, and
the reason fits this token: where a symbol is expected there is another one, and the input ends
at the end mark. Reading never goes past the end mark, so there always is a token to be named.
-/

namespace TermReader

/-- What a reason says about the token at a position. -/
def Reason.Fits (tokens : List Token) (position : Nat) (token : Token) : Reason → Prop
  | expectedParen => token ≠ ")"
  | expectedBracket => token ≠ "]"
  | expectedOpenBracket => token ≠ "["
  | expectedBrace => token ≠ "\x7d"
  | expectedAngle => token ≠ ">"
  | expectedBar => token ≠ "|"
  | expectedCall => token ≠ "("
  | wrongArgumentCount => 0 < position ∧ tokens[position - 1]? = some ")"
  | unexpectedToken => token ≠ Token.endMark
  | unexpectedEnd => token = Token.endMark
  | trailingTokens => position + 1 < tokens.length

theorem Reason.fits_of_symbol? {reason : Reason} {symbol token : Token}
    (h : reason.symbol? = some symbol) (hne : token ≠ symbol) (tokens : List Token)
    (position : Nat) : reason.Fits tokens position token := by
  cases reason with
  | expectedCall | wrongArgumentCount | unexpectedToken | unexpectedEnd | trailingTokens => cases h
  | _ =>
    obtain rfl := Option.some.inj h
    exact hne

/-- The rejection names a token of the list with its position, and its reason fits the token. -/
structure Rejection.PointsInto (r : Rejection) (tokens : List Token) : Prop where
  token_at : ∃ h : r.position < tokens.length, tokens[r.position] = r.token
  fits : r.reason.Fits tokens r.position r.token

namespace Cursor

variable {ctx : Context} {c d : Cursor} {before : List Token}

/-- A cursor that is reached stands before a token of the input. -/
theorem Reaches.token_at (hctx : ctx.WellNamed)
    (h : (start (before ++ [Token.endMark])).Reaches ctx c) :
    ∃ hc : c.position < (before ++ [Token.endMark]).length,
      (before ++ [Token.endMark])[c.position] = c.lookahead := by
  have hle := h.position_le_length hctx
  have hlt : c.position < (before ++ [Token.endMark]).length := by
    rw [List.length_append, List.length_singleton]
    omega
  refine ⟨hlt, ?_⟩
  rw [lookahead, h.rest_eq, List.drop_eq_getElem_cons hlt]
  rfl

/-- Where reading fails, the reason fits the token that is named. -/
theorem Fails.fits (hctx : ctx.WellNamed) {r : Rejection}
    (hreach : (start (before ++ [Token.endMark])).Reaches ctx d)
    (h : (start (before ++ [Token.endMark])).Fails ctx d (.rejected r)) :
    r.token = d.lookahead ∧ r.reason.Fits (before ++ [Token.endMark]) r.position r.token := by
  generalize hr : Failure.rejected r = failure at h
  cases h with
  | missing hreason hne =>
    cases hr
    exact ⟨rfl, Reason.fits_of_symbol? hreason hne _ _⟩
  | ended hend =>
    cases hr
    exact ⟨rfl, by simp [lookahead, hend, Reason.Fits]⟩
  | unopened hopening =>
    cases hr
    refine ⟨rfl, ?_⟩
    dsimp only
    split
    · next hmark => exact hmark
    · next hmark => exact hmark
  | uncalled _ hne =>
    cases hr
    exact ⟨rfl, hne⟩
  | @miscounted e name count _ hreach' hclose hcount =>
    cases hr
    obtain ⟨he, htoken⟩ := hreach'.token_at hctx
    refine ⟨rfl, Nat.succ_pos _, ?_⟩
    exact List.getElem?_eq_some_iff.2 ⟨he, htoken.trans hclose⟩
  | excess => cases hr

end Cursor

namespace Grammar

variable {σ τ : Type} {ctx : Context} {b : Builder σ τ} {before : List Token} {s s' : σ}
  {r : Rejection}

/-- Reading a token stream fails where reading its term fails, or behind the term. -/
theorem fails_of_read {tokens : List Token} {e : Failure} (h : read ctx b tokens s = .error e s') :
    ∃ d, (Cursor.start tokens).Reaches ctx d ∧
      ((Cursor.start tokens).Fails ctx d e ∨
        d.rest ≠ [Token.endMark] ∧ e = d.reject .trailingTokens none) := by
  have hagree : ∀ i ≤ 0, tokens[i]? = tokens[i]? := fun _ _ => rfl
  obtain ⟨d, hends, -⟩ := repeats_term ctx b hagree s
  refine ⟨d, hends.reaches, ?_⟩
  rw [read_eq] at h
  cases hterm : (phrase ctx b .term (.start tokens)).bare s with
  | error e s₁ =>
    rw [Reading.andThen_of_bare_error hterm] at h
    cases h
    rw [hterm] at hends
    exact .inl hends.reaches_fails.2
  | ok y s₁ =>
    obtain ⟨x, c⟩ := y
    rw [Reading.andThen_of_bare_ok hterm] at h
    rw [hterm] at hends
    obtain ⟨-⟩ := hends
    by_cases hrest : d.rest = [Token.endMark]
    · rw [if_pos hrest] at h
      cases h
    · rw [if_neg hrest] at h
      cases h
      exact .inr ⟨hrest, rfl⟩

/-- Only a numeral of the stream can have too many digits. -/
theorem exists_excess_of_read (hctx : ctx.WellNamed) {digits : Nat}
    (h : read ctx b (before ++ [Token.endMark]) s = .error (.excessDigits digits) s') :
    ∃ t ∈ before ++ [Token.endMark], ctx.opening t = .excess digits := by
  obtain ⟨d, hreach, hfail | ⟨-, hr⟩⟩ := fails_of_read h
  · obtain ⟨hlt, htoken⟩ := hreach.token_at hctx
    have hopening : ctx.opening d.lookahead = .excess digits := by
      generalize he : Failure.excessDigits digits = e at hfail
      cases hfail with
      | excess hopening =>
        obtain rfl := Failure.excessDigits.inj he
        exact hopening
      | _ => cases he
    exact ⟨_, List.getElem_mem hlt, htoken ▸ hopening⟩
  · cases hr

/-- A token stream is rejected at one of its tokens, for a reason that fits this token. -/
theorem pointsInto_of_read (hctx : ctx.WellNamed)
    (h : read ctx b (before ++ [Token.endMark]) s = .error (.rejected r) s') :
    r.PointsInto (before ++ [Token.endMark]) := by
  obtain ⟨d, hreach, hfail⟩ := fails_of_read h
  obtain ⟨hlt, htoken⟩ := hreach.token_at hctx
  rcases hfail with hfail | ⟨hrest, hr⟩
  · obtain ⟨heq, hfits⟩ := hfail.fits hctx hreach
    have hposition := hfail.position_eq
    refine ⟨?_, hfits⟩
    rw [heq, hposition]
    exact ⟨hlt, htoken⟩
  · obtain rfl := Failure.rejected.inj hr
    -- the term does not end at the end mark, which is the last token
    have hne : d.position ≠ before.length := fun hlast =>
      hrest ((hreach.rest_eq_endMark_iff hctx).2 ⟨hlast, rfl⟩)
    refine ⟨⟨hlt, htoken⟩, ?_⟩
    have hle := hreach.position_le_length hctx
    simp only [Reason.Fits, List.length_append, List.length_singleton]
    omega

end Grammar

namespace Expression

variable {ρ σ τ : Type} {ctx : Context} {b : Builder σ τ} {splits : Bool} {chooser : Chooser ρ}
  {source : String} {random : ρ} {s s' : σ} {r : Rejection}

/-- However an expression is processed, it is rejected at one of its processed tokens, and the
reason fits the token at the position that is given. -/
theorem pointsInto_of_parse (hctx : ctx.WellNamed)
    (h : (parse ctx b splits chooser source random s).result = .error (.rejected r) s') :
    r.PointsInto (parse ctx b splits chooser source random s).prepared.tokens := by
  unfold parse at h ⊢
  rw [prepare_words] at h ⊢
  exact Grammar.pointsInto_of_read hctx h

/-- A wrong number of arguments is noticed behind the bracket. -/
theorem pointsInto_of_parse_miscounted :
    (parse .standard .terms true .first "rand(x, 2y, z) + 1" () ()).result =
        .error (.rejected ⟨.wrongArgumentCount, "+", 9,
          some "function rand got 3 argument(s)"⟩) () ∧
      Rejection.PointsInto
        ⟨.wrongArgumentCount, "+", 9, some "function rand got 3 argument(s)"⟩
        ["rand", "(", "x", ",", "2", "y", ",", "z", ")", "+", "1", Token.endMark] := by
  have hparse : parse .standard .terms true .first "rand(x, 2y, z) + 1" () () =
      ⟨⟨["rand", "(", "x", ",", "2y", ",", "z", ")", "+", "1", Token.endMark],
        ["rand", "(", "x", ",", "2", "y", ",", "z", ")", "+", "1", Token.endMark], []⟩, (),
        .error (.rejected ⟨.wrongArgumentCount, "+", 9,
          some "function rand got 3 argument(s)"⟩) ()⟩ := by
    cbv
  have hresult := congrArg Parsed.result hparse
  have hpoints := pointsInto_of_parse Context.wellNamed_standard hresult
  rw [hparse] at hpoints
  exact ⟨hresult, hpoints⟩

end Expression

end TermReader
