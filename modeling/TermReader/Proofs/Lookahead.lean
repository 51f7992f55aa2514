import TermReader.Proofs.Locality
import TermReader.Proofs.Openings
import Mathlib

/-!
One token of lookahead. Every part of the reader is local, so two inputs that agree as
far as the token at which the one is rejected are both rejected there, for the same
reason and after the same constructions. The end of the input is the exception: that a
term is followed by the end mark alone is seen from the number of tokens left.
-/

namespace TermReader

namespace Grammar

variable {σ τ : Type} (ctx : Context) (b : Builder σ τ)

/-- What may follow a primary phrase is local where the phrases in it are. -/
theorem localAt_indexed {c : Cursor} (x : τ)
    (hfirst : c.lookahead = "[" → LocalAt ctx (fun d => (phrase ctx b .term d).bare) c.next)
    (hsecond : c.lookahead = "[" → ∀ d : Cursor, d.size < c.next.size → d.lookahead = "," →
      LocalAt ctx (fun d => (phrase ctx b .term d).bare) d.next) :
    LocalAt ctx (indexed ctx b x) c := by
  refine .ifSymbol (fun hopen => ?_) fun _ => .done x
  have hpass : c.Passable ctx := Cursor.passable_of_symbol hopen (by decide)
  refine .andThen ((hfirst hopen).next hpass) fun i d hd => ?_
  refine .ifSymbol (fun hcomma => ?_) fun _ => .closedIndex _ _
  refine .andThen ((hsecond hopen d hd hcomma).next ?_) fun j e _ => .closedIndex _ _
  exact Cursor.passable_of_symbol hcomma (by decide)

/-- A call is local behind its dimensions where its arguments and its operand are. -/
theorem localAt_applied {c : Cursor} {name : Token} (hname : ctx.isFunction name = true)
    (dims : List τ)
    (hargs : c.lookahead = "(" → LocalAt ctx (fun d => (arguments ctx b d).bare) c.next)
    (hoperand : LocalAt ctx (fun d => (phrase ctx b .unary d).bare) c) :
    LocalAt ctx (applied ctx b name dims) c := by
  refine .ifSymbol (fun hopen => ?_) fun hnone => ?_
  · have hpass : c.Passable ctx := Cursor.passable_of_symbol hopen (by decide)
    by_cases hzero : 0 ∈ ctx.arities name
    · simp only [if_pos hzero]
      exact (LocalAt.counted hname dims []).next hpass
    · simp only [if_neg hzero]
      exact .andThen ((hargs hopen).next hpass) fun args d _ => .counted hname dims args
  · by_cases hone : 1 ∈ ctx.arities name ∧ dims.isEmpty = true
    · simp only [if_pos hone]
      exact .andThen hoperand fun x d _ => .value (.makeNode b _ _ _)
    · simp only [if_neg hone]
      exact .reject (.uncalled hname hnone)

/-- A primary phrase is local where what its first token opens is. -/
theorem localAt_primary {c : Cursor} {o : Context.Opening} (hend : c.rest ≠ [])
    (hopening : ctx.opening c.lookahead = o) (hsome : o ≠ .none)
    (h : c.Passable ctx → LocalAt ctx (opened ctx b o) c) :
    LocalAt ctx (fun d => (phrase ctx b .primary d).bare) c := by
  simp only [bare_primary]
  refine .ifEnded (fun h => absurd h hend) fun _ => ?_
  refine (h (Cursor.passable_of_opening hend (hopening ▸ hsome))).congr fun d hd => ?_
  rw [hd, hopening]

/-- Every part of the reader is local. The induction is on the tokens left and the rank of
the phrase, as for reading. -/
theorem localAt :
    (∀ p c, LocalAt ctx (fun d => (phrase ctx b p d).bare) c) ∧
    (∀ c, c.rest ≠ [] → ctx.opening c.lookahead = .call → c.Passable ctx →
      LocalAt ctx (opened ctx b .call) c) ∧
    (∀ c, LocalAt ctx (fun d => (arguments ctx b d).bare) c) ∧
    (∀ k c, LocalAt ctx (fun d => (series ctx b k d).bare) c) ∧
    (∀ k c, LocalAt ctx (fun d => (more ctx b k d).bare) c) ∧
    (∀ c, LocalAt ctx (fun d => (dimensions ctx b d).bare) c) := by
  refine phrase.mutual_induct ctx _ _ _ _ _ _ ?tier ?sum ?product ?power ?minus ?not ?plain
    ?ended ?leaf ?excess ?call ?paren ?bar ?matrix ?vector ?set ?unexpected ?row ?noRow ?empty
    ?elements ?list ?arguments ?series ?stop ?step ?dimensions ?noDimensions
  case tier =>
    intro c t _ ihleft ihright
    simp only [bare_tier]
    refine .andThen ihleft fun left d hd => .ifOperator (fun hop => ?_) (.done left)
    have hpass : d.Passable ctx := Cursor.passable_of_symbol rfl (Tier.ne_endMark hop)
    have hright := LocalAt.andThen (f := fun right e => do
      let value ← b.makeNode d.lookahead [left, right] []
      return (value, e)) ((ihright d hd).next hpass) fun right e _ => .value (.makeNode b _ _ _)
    exact hright.congr fun e he => by simp only [he]
  case sum =>
    intro c ih
    simp only [bare_sum]
    exact .andThen ih fun xs d _ => .value (.makeSum b _ _)
  case product =>
    intro c ih
    simp only [bare_product]
    exact .andThen ih fun xs d _ => .value (.makeProduct b _ _)
  case power =>
    intro c ihbase ihexponent
    simp only [bare_power]
    refine .andThen ihbase fun base d hd => .ifSymbol (fun hop => ?_) fun _ => .done base
    refine .andThen ((ihexponent d hd).next (Cursor.passable_of_symbol hop (by decide))) ?_
    exact fun exponent e _ => .value (.makeNode b _ _ _)
  case minus =>
    intro c hminus _ ih
    simp only [bare_unary]
    refine .ifSymbol (fun _ => ?_) fun h => absurd hminus h
    refine .andThen (ih.next (Cursor.passable_of_symbol hminus (by decide))) ?_
    exact fun x d _ => .value (.makeNode b _ _ _)
  case not =>
    intro c hminus hnot _ ih
    simp only [bare_unary]
    refine .ifSymbol (fun h => absurd h hminus) fun _ => ?_
    refine .ifSymbol (fun _ => ?_) fun h => absurd hnot h
    refine .andThen (ih.next (Cursor.passable_of_symbol hnot (by decide))) ?_
    exact fun x d _ => .value (.makeNode b _ _ _)
  case plain =>
    intro c hminus hnot ih ihfirst ihsecond
    simp only [bare_unary]
    refine .ifSymbol (fun h => absurd h hminus) fun _ => ?_
    refine .ifSymbol (fun h => absurd h hnot) fun _ => ?_
    refine .andThen ih fun x d hd => localAt_indexed ctx b x (fun _ => ihfirst d hd) ?_
    exact fun _ e he _ => ihsecond d hd e he
  case ended =>
    intro c hend
    simp only [bare_primary]
    exact .ifEnded (fun h => .reject (.ended h)) fun h => absurd hend h
  case leaf =>
    intro c hend _ l hopening
    refine localAt_primary ctx b hend hopening (by simp) fun hpass => ?_
    exact .built (.makeLeaf b l) (.passed hpass)
  case excess =>
    intro c hend _ digits hopening
    exact localAt_primary ctx b hend hopening (by simp) fun _ => .throw (.excess hopening)
  case call =>
    intro c hend _ hopening ih
    exact localAt_primary ctx b hend hopening (by simp) fun hpass => ih hopening hpass
  case paren =>
    intro c hend _ hopening ih
    refine localAt_primary ctx b hend hopening (by simp) fun hpass => ?_
    exact .delimited ")" .expectedParen (ih.next hpass) rfl .pure
  case bar =>
    intro c hend _ hopening ih
    refine localAt_primary ctx b hend hopening (by simp) fun hpass => ?_
    exact .delimited "|" .expectedBar (ih.next hpass) rfl fun x => .makeNode b "abs" [x] []
  case matrix =>
    intro c hend _ hopening hrow ih
    refine localAt_primary ctx b hend hopening (by simp) fun hpass => ?_
    refine LocalAt.next (m := bracketed ctx b) ?_ hpass
    refine .ifSymbol (fun _ => ?_) fun h => absurd hrow h
    exact .delimited "]" .expectedBracket ih rfl fun xs => .makeNode b _ _ _
  case vector =>
    intro c hend _ hopening hrow ih
    refine localAt_primary ctx b hend hopening (by simp) fun hpass => ?_
    refine LocalAt.next (m := bracketed ctx b) ?_ hpass
    exact .ifSymbol (fun h => absurd h hrow) fun _ => ih
  case set =>
    intro c hend _ hopening ih
    refine localAt_primary ctx b hend hopening (by simp) fun hpass => ?_
    exact .delimited "\x7d" .expectedBrace (ih.next hpass) rfl fun xs =>
      .makeNode b "set" (xs.1 :: xs.2.map (·.2)) []
  case unexpected =>
    intro c hend _ hopening
    simp only [bare_primary]
    refine .ifEnded (fun h => absurd h hend) fun _ => ?_
    refine (LocalAt.reject (.unopened hopening)).congr fun d hd => ?_
    rw [hd, hopening, opened, hd]
  case row =>
    intro c hopen _ ih
    simp only [bare_row]
    refine .ifSymbol (fun _ => ?_) fun h => absurd hopen h
    exact ih.next (Cursor.passable_of_symbol hopen (by decide))
  case noRow =>
    intro c hopen
    simp only [bare_row]
    exact .ifSymbol (fun h => absurd h hopen) fun h => .reject (.missing rfl h)
  case empty =>
    intro c hclose
    simp only [bare_elements]
    refine .ifSymbol (fun _ => ?_) fun h => absurd hclose h
    refine .built (.makeNode b _ _ _) (.passed ?_)
    exact Cursor.passable_of_symbol hclose (by decide)
  case elements =>
    intro c hclose ih
    simp only [bare_elements]
    refine .ifSymbol (fun h => absurd h hclose) fun _ => ?_
    exact .delimited "]" .expectedBracket ih rfl fun xs => .makeNode b _ _ _
  case list =>
    intro c hend _ ihdims ihargs ihoperand hopening hpass
    have hname := Context.isFunction_of_opening hopening
    have happlied (dims : List τ) (d : Cursor) (hd : d.size < c.next.size + 1) :=
      localAt_applied ctx b hname dims (fun _ => ihargs d hd) (ihoperand d hd)
    refine (LocalAt.andThen (ihdims.next hpass) happlied).congr fun d hd => ?_
    rw [opened, hd]
  case arguments =>
    intro c ih
    simp only [bare_arguments]
    exact .andThen ih fun xs d _ => .done _
  case series =>
    intro k c _ ihfirst ihmore
    simp only [bare_series]
    exact .andThen ihfirst fun first d hd => .andThen (ihmore d hd) fun later e _ => .done _
  case stop =>
    intro k c hjoint
    simp only [bare_more]
    refine .congr (.done []) fun d hd => ?_
    rw [hd, hjoint]
  case step =>
    intro k c j hjoint _ _ _ ihfirst ihmore
    simp only [bare_more]
    have hstepped : LocalAt ctx (stepped ctx b k j) (c.past j) :=
      .andThen ihfirst fun x d hd => .andThen (ihmore d hd) fun later e _ => .done _
    refine (hstepped.past hjoint).congr fun d hd => ?_
    rw [hd, hjoint]
  case dimensions =>
    intro c hopen _ ih
    simp only [bare_dimensions]
    refine .ifSymbol (fun _ => ?_) fun h => absurd hopen h
    have hpass : c.Passable ctx := Cursor.passable_of_symbol hopen (by decide)
    exact .delimited ">" .expectedAngle (ih.next hpass) rfl fun xs => .pure _
  case noDimensions =>
    intro c hopen
    simp only [bare_dimensions]
    exact .ifSymbol (fun h => absurd h hopen) fun _ => .done []

/-- The term at the start of an input that agrees with another up to a position. -/
theorem repeats_term {tokens tokens' : List Token} {q : Nat}
    (hagree : ∀ i ≤ q, tokens'[i]? = tokens[i]?) (s : σ) :
    ∃ d, Ends ctx (.start tokens) d ((phrase ctx b .term (.start tokens)).bare s) ∧
      (d.position ≤ q → Repeats q ((phrase ctx b .term (.start tokens)).bare s)
        ((phrase ctx b .term (.start tokens')).bare s)) := by
  refine (localAt ctx b).1 .term (.start tokens) q (.start tokens') ⟨rfl, fun i hi => ?_⟩ s
  exact hagree i (by simpa [Cursor.start] using hi)

theorem read_eq (tokens : List Token) :
    read ctx b tokens = (phrase ctx b .term (.start tokens)).andThen fun x c =>
      if c.rest = [Token.endMark] then pure x else throw (c.reject .trailingTokens none) := rfl

variable {ctx b}

/-- One token of lookahead and no backtracking. Where an input is rejected, any other
input with the same tokens up to that place is rejected in the same way, after the same
constructions; only the end mark behind a whole term is told from further tokens by what
follows it. -/
theorem read_rejected_of_agree {tokens tokens' : List Token} {s s' : σ} {r : Rejection}
    (h : read ctx b tokens s = .error (.rejected r) s')
    (hend : r.reason ≠ .trailingTokens ∨ r.token ≠ Token.endMark)
    (hagree : ∀ i ≤ r.position, tokens'[i]? = tokens[i]?) :
    read ctx b tokens' s = .error (.rejected r) s' := by
  obtain ⟨d, hends, hrepeats⟩ := repeats_term ctx b hagree s
  rw [read_eq] at h ⊢
  cases hterm : (phrase ctx b .term (.start tokens)).bare s with
  | error e s₁ =>
    rw [Reading.andThen_of_bare_error hterm] at h
    cases h
    rw [hterm] at hends hrepeats
    obtain ⟨-, hfail⟩ := hends.reaches_fails
    have hterm' := (hrepeats (Nat.le_of_eq hfail.position_eq.symm)).eq_error
    exact Reading.andThen_of_bare_error hterm'
  | ok y s₁ =>
    obtain ⟨x, c⟩ := y
    rw [Reading.andThen_of_bare_ok hterm] at h
    rw [hterm] at hends hrepeats
    cases hends
    by_cases hrest : d.rest = [Token.endMark]
    · rw [if_pos hrest] at h
      cases h
    rw [if_neg hrest] at h
    cases h
    -- what is left does not start with the end mark, so it is too much in either input
    have htoken : d.lookahead ≠ Token.endMark := hend.resolve_left fun h => h rfl
    obtain ⟨d', hterm', hd'⟩ := (hrepeats (Nat.le_refl _)).exists_ok
    have hrest' : d'.rest ≠ [Token.endMark] := by
      intro heq
      rw [← hd'.lookahead_eq (Nat.le_refl _), Cursor.lookahead, heq] at htoken
      exact htoken rfl
    rw [Reading.andThen_of_bare_ok hterm', if_neg hrest', hd'.reject_eq (Nat.le_refl _)]
    rfl

/-- Behind a closing parenthesis that nothing has opened, the input does not matter. -/
theorem read_rejected_unopened :
    read (.empty "none") .calls ["1", "+", ")", Token.endMark] [] =
      .error (.rejected ⟨.unexpectedToken, ")", 2, none⟩) [.leaf (.int 1)] := by
  have hread : read (.empty "none") .calls ["1", "+", ")", "x", Token.endMark] [] =
      .error (.rejected ⟨.unexpectedToken, ")", 2, none⟩) [.leaf (.int 1)] := by
    cbv
  refine read_rejected_of_agree hread (.inl (by decide)) fun i hi => ?_
  dsimp only at hi
  obtain rfl | rfl | rfl : i = 0 ∨ i = 1 ∨ i = 2 := by omega
  all_goals rfl

end Grammar

end TermReader
