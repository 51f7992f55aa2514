import TermReader.Proofs.Reads

/-!
What a run of the reader comes to when it builds terms. Building terms has no effect,
so such a run only passes values on. A run that succeeds is taken apart step by step
by the equivalences, and put together again by the implications.
-/

namespace TermReader

section Building

@[simp] theorem Builder.terms_makeLeaf (l : Leaf) : Builder.terms.makeLeaf l = pure (.leaf l) := rfl

@[simp] theorem Builder.terms_makeNode (op : String) (args dims : List Term) :
    Builder.terms.makeNode op args dims = pure (.node op args dims) := rfl

@[simp] theorem Builder.terms_makeSum (first : Term) (later : List (Token × Term)) :
    Builder.terms.makeSum first later = pure (.ofSum first later) := by
  have hsummand : (fun y : Token × Term =>
      if y.1 = "-" then Builder.terms.makeNode ".-" [y.2] [] else pure y.2) =
        fun y => (pure (Term.summand y) : Reading Unit Term) := by
    funext y
    unfold Term.summand
    split <;> rfl
  rw [Builder.makeSum_eq, hsummand]
  unfold Term.ofSum
  split
  · rfl
  · split
    · rfl
    · simp only [List.mapM_pure, pure_bind, terms_makeNode]

@[simp] theorem Builder.terms_makeProduct (first : Term) (later : List (Token × Term)) :
    Builder.terms.makeProduct first later = pure (.ofProduct first later) := by
  unfold Builder.makeProduct Term.ofProduct
  split
  · rfl
  · split
    · simp only [terms_makeNode, List.foldlM_pure]
    · rfl

end Building

namespace Cursor

theorem rest_eq_cons {c : Cursor} {t : Token} (h : c.lookahead = t) (ht : t ≠ Token.endMark) :
    c.rest = t :: c.next.rest :=
  eq_cons_of_lead h ht

theorem rest_eq_lookahead_cons {c : Cursor} (h : c.rest ≠ []) :
    c.rest = c.lookahead :: c.next.rest := by
  obtain ⟨n, ts⟩ := c
  cases ts with
  | nil => exact absurd rfl h
  | cons t ts => rfl

theorem rest_past (c : Cursor) (j : Joint) : (c.past j).rest = j.past c.rest := by
  cases j <;> rfl

end Cursor

/-- The computation succeeds with the value. -/
def Yields {α : Type} (m : Reading Unit α) (x : α) : Prop := m () = .ok x ()

namespace Yields

variable {α β : Type}

theorem bind_iff {m : Reading Unit α} {f : α → Reading Unit β} {y : β} :
    Yields (m >>= f) y ↔ ∃ x, Yields m x ∧ Yields (f x) y := by
  simp only [Yields, Bind.bind, EStateM.bind]
  cases h : m () with
  | ok x s => simp
  | error e s => simp

theorem pure_iff {x y : α} : Yields (Pure.pure x) y ↔ x = y := by
  simp [Yields, Pure.pure, EStateM.pure]

theorem throw_iff {e : Failure} {y : α} : Yields (throw e) y ↔ False := by
  simp [Yields, throw, throwThe, MonadExceptOf.throw, EStateM.throw]

theorem expect_iff {c : Cursor} {symbol : Token} {reason : Reason} {u : Unit} :
    Yields (c.expect symbol reason) u ↔ c.lookahead = symbol := by
  unfold Cursor.expect
  split
  · next h => simp [pure_iff, h]
  · next h => simp [throw_iff, h]

/-- A symbol that was expected and found is in front of what is left. -/
theorem expected {c : Cursor} {symbol : Token} {reason : Reason} {f : Unit → Reading Unit β}
    {y : β} (h : Yields (c.expect symbol reason >>= f) y) (hsymbol : symbol ≠ Token.endMark) :
    c.rest = symbol :: c.next.rest ∧ Yields (f ()) y := by
  obtain ⟨_, hexpect, hy⟩ := bind_iff.1 h
  exact ⟨Cursor.rest_eq_cons (expect_iff.1 hexpect) hsymbol, hy⟩

theorem bind {m : Reading Unit α} {f : α → Reading Unit β} {x : α} {y : β} (hm : Yields m x)
    (hf : Yields (f x) y) : Yields (m >>= f) y :=
  bind_iff.2 ⟨x, hm, hf⟩

theorem pure (x : α) : Yields (Pure.pure x) x := rfl

theorem expect {c : Cursor} {symbol : Token} {reason : Reason} (h : c.lookahead = symbol) :
    Yields (c.expect symbol reason) () :=
  expect_iff.2 h

theorem of_pos {p : Prop} [Decidable p] {m m' : Reading Unit α} {x : α} (h : p)
    (hm : Yields m x) : Yields (if p then m else m') x := by
  rwa [if_pos h]

theorem of_neg {p : Prop} [Decidable p] {m m' : Reading Unit α} {x : α} (h : ¬ p)
    (hm : Yields m' x) : Yields (if p then m else m') x := by
  rwa [if_neg h]

theorem of_dpos {p : Prop} [Decidable p] {m : p → Reading Unit α} {m' : ¬ p → Reading Unit α}
    {x : α} (h : p) (hm : Yields (m h) x) : Yields (if h : p then m h else m' h) x := by
  rwa [dif_pos h]

theorem of_dneg {p : Prop} [Decidable p] {m : p → Reading Unit α} {m' : ¬ p → Reading Unit α}
    {x : α} (h : ¬ p) (hm : Yields (m' h) x) : Yields (if h : p then m h else m' h) x := by
  rwa [dif_neg h]

end Yields

end TermReader
