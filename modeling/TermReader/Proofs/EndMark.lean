import TermReader.Proofs.Lookahead
import TermReader.Proofs.Openings

/-!
End marks inside an input. In a well named context the end mark opens no phrase, so reading
stops at the first one and never learns what is behind it. Only the end of reading counts
the tokens that are left, and so an end mark that is not the last token ends no input.
-/

namespace TermReader

namespace Cursor

variable {ctx : Context} {c : Cursor} {before after : List Token}

theorem Passable.ne_endMark (h : c.Passable ctx) (hctx : ctx.WellNamed) :
    c.lookahead ≠ Token.endMark := by
  intro hend
  refine h.2 hend ?_
  rw [hctx.opening_of_symbolic (by decide)]
  rfl

theorem Reaches.rest_eq {tokens : List Token} (h : (start tokens).Reaches ctx c) :
    c.rest = tokens.drop c.position := by
  induction h with
  | refl => rfl
  | next _ _ ih => rw [Cursor.next, ih, List.tail_drop]

/-- Reading does not go past an end mark. -/
theorem Reaches.position_le_length (hctx : ctx.WellNamed)
    (h : (start (before ++ Token.endMark :: after)).Reaches ctx c) :
    c.position ≤ before.length := by
  induction h with
  | refl => exact Nat.zero_le _
  | @next d h hpass ih =>
    refine Nat.lt_of_le_of_ne ih fun heq => hpass.ne_endMark hctx ?_
    rw [lookahead, h.rest_eq, heq, List.drop_left]
    rfl

/-- An end mark ends the input where it is reached and nothing is behind it. -/
theorem Reaches.rest_eq_endMark_iff (hctx : ctx.WellNamed)
    (h : (start (before ++ Token.endMark :: after)).Reaches ctx c) :
    c.rest = [Token.endMark] ↔ c.position = before.length ∧ after = [] := by
  have hle := h.position_le_length hctx
  rw [h.rest_eq]
  constructor
  · intro heq
    have hlength := congrArg List.length heq
    simp only [List.length_drop, List.length_append, List.length_cons, List.length_nil] at hlength
    exact ⟨by omega, List.length_eq_zero_iff.1 (by omega)⟩
  · rintro ⟨hposition, rfl⟩
    rw [hposition, List.drop_left]

end Cursor

namespace Grammar

variable {σ τ : Type} {ctx : Context} {b : Builder σ τ}

theorem reaches_of_term {tokens : List Token} {x : τ} {c : Cursor} {s s' : σ}
    (h : (phrase ctx b .term (.start tokens)).bare s = .ok (x, c) s') :
    (Cursor.start tokens).Reaches ctx c := by
  obtain ⟨d, hends, -⟩ := repeats_term ctx b (q := 0) (fun i _ => Eq.refl tokens[i]?) s
  rw [h] at hends
  cases hends with
  | ok hreach => exact hreach

/-- An end mark inside an input makes one difference. What is rejected in front of it is
rejected in the same way whatever follows, and what is accepted in front of it is rejected
as soon as anything follows, at this end mark and after the same constructions. -/
theorem read_inner_endMark (hctx : ctx.WellNamed) (before after : List Token) (s : σ) :
    read ctx b (before ++ Token.endMark :: (after ++ [Token.endMark])) s =
      match read ctx b (before ++ [Token.endMark]) s with
      | .ok _ s' =>
        .error (.rejected ⟨.trailingTokens, Token.endMark, before.length, none⟩) s'
      | .error e s' => .error e s' := by
  have hagree : ∀ i ≤ before.length,
      (before ++ Token.endMark :: (after ++ [Token.endMark]))[i]? =
        (before ++ [Token.endMark])[i]? := by
    intro i hi
    rcases Nat.lt_or_eq_of_le hi with hlt | rfl
    · rw [List.getElem?_append_left hlt, List.getElem?_append_left hlt]
    · simp
  obtain ⟨d, hends, hrepeats⟩ := repeats_term ctx b hagree s
  have hd : d.position ≤ before.length := hends.reaches.position_le_length hctx
  specialize hrepeats hd
  simp only [read_eq]
  cases hterm : (phrase ctx b .term (.start (before ++ [Token.endMark]))).bare s with
  | error e s' =>
    rw [hterm] at hrepeats
    rw [Reading.andThen_of_bare_error hterm, Reading.andThen_of_bare_error hrepeats.eq_error]
  | ok y s' =>
    obtain ⟨x, c⟩ := y
    rw [hterm] at hends hrepeats
    obtain ⟨hreach⟩ := hends
    obtain ⟨d', hterm', hd'⟩ := hrepeats.exists_ok
    have hmore : d'.rest ≠ [Token.endMark] := by
      rw [ne_eq, (reaches_of_term hterm').rest_eq_endMark_iff hctx]
      simp
    rw [Reading.andThen_of_bare_ok hterm, Reading.andThen_of_bare_ok hterm', if_neg hmore,
      hd'.reject_eq hd]
    by_cases hlast : d.position = before.length
    · have hrest := (hreach.rest_eq_endMark_iff hctx).2 ⟨hlast, rfl⟩
      rw [if_pos hrest, Cursor.reject, Cursor.lookahead, hrest, hlast]
      rfl
    · rw [if_neg fun hrest => hlast ((hreach.rest_eq_endMark_iff hctx).1 hrest).1]
      rfl

/-- An end mark behind a sum, and one inside its last operand. -/
theorem read_inner_endMark_sum :
    read .standard .terms ["1", "+", "x", Token.endMark, ")", Token.endMark] () =
        .error (.rejected ⟨.trailingTokens, Token.endMark, 3, none⟩) () ∧
      read .standard .terms ["1", "+", "sin", "(", Token.endMark, "x", ")", Token.endMark] () =
        .error (.rejected ⟨.unexpectedEnd, Token.endMark, 4, none⟩) () := by
  constructor
  · refine (read_inner_endMark Context.wellNamed_standard ["1", "+", "x"] [")"] ()).trans ?_
    cbv
  · refine (read_inner_endMark Context.wellNamed_standard ["1", "+", "sin", "("]
      ["x", ")"] ()).trans ?_
    cbv

end Grammar

end TermReader
