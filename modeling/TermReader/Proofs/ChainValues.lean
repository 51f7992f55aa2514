import TermReader.Proofs.Evaluation
import TermReader.Proofs.Readable

/-!
What sums and products are worth. A chain becomes one of several terms, depending on the
operators in it: a difference, a sum of terms some of which are negated, a product, or quotients
inside each other. Whichever it is, its value is that of the operands one after the other from
the left, each under the operator in front of it. Nothing but the meaning of subtraction is
needed for this; the operations need be neither commutative nor associative.
-/

namespace TermReader

namespace Term

section Meaning

variable {α : Type*} [Add α] [Neg α] [Sub α] [Mul α] [Div α]

/-- The operations of sums and products. Sums and products of any number of values are formed
from the left. -/
def operations : String → List α → Option α
  | ".-", [a] => some (-a)
  | "+", a :: as => some (as.foldl (· + ·) a)
  | "-", [a, b] => some (a - b)
  | "*", a :: as => some (as.foldl (· * ·) a)
  | "/", [a, b] => some (a / b)
  | _, _ => none

/-- The value of a term, from the values of all terms to which none of the operations applies. -/
def meaning (other : Term → α) : Term → α := eval operations other

variable (other : Term → α)

/-- Applies the operator in front of an operand to what has been formed so far. -/
def operate (a : α) (y : Token × Term) : Option α := operations y.1 [a, meaning other y.2]

variable {other} {y : Token × Term} {ys : List (Token × Term)}

theorem meaning_sum (x : Term) (xs : List Term) :
    meaning other (node "+" (x :: xs) []) =
      xs.foldl (fun a x => a + meaning other x) (meaning other x) :=
  (eval_node rfl).trans List.foldl_map

theorem meaning_product (x : Term) (xs : List Term) :
    meaning other (node "*" (x :: xs) []) =
      xs.foldl (fun a x => a * meaning other x) (meaning other x) :=
  (eval_node rfl).trans List.foldl_map

theorem operate_summand (hsub : ∀ a b : α, a - b = a + -b)
    (hy : y.1 ∈ Series.summands.operators) (a : α) :
    operate other a y = some (a + meaning other (summand y)) := by
  obtain ⟨op, x⟩ := y
  simp only [Series.operators, List.mem_cons, List.not_mem_nil, or_false] at hy
  rcases hy with rfl | rfl
  · rfl
  · exact congrArg some (hsub a _)

theorem operate_factor (hy : y.1 = "*") (a : α) :
    operate other a y = some (a * meaning other y.2) := by
  rw [operate, hy]
  rfl

theorem operate_node (hy : y.1 ∈ Series.factors.operators) (x : Term) :
    operate other (meaning other x) y = some (meaning other (node y.1 [x, y.2] [])) := by
  obtain ⟨op, z⟩ := y
  simp only [Series.operators, List.mem_cons, List.not_mem_nil, or_false] at hy
  rcases hy with rfl | rfl
  · rfl
  · rfl

/-- Operands that are taken in one by one, by steps with the right values, have the right value
altogether. -/
theorem foldlM_operate {β : Type*} {v : β → α} {f : β → Token × Term → β}
    (h : ∀ y ∈ ys, ∀ b, operate other (v b) y = some (v (f b y))) (b : β) :
    ys.foldlM (operate other) (v b) = some (v (ys.foldl f b)) := by
  induction ys generalizing b with
  | nil => rfl
  | cons y ys ih =>
    obtain ⟨hy, hys⟩ := List.forall_mem_cons.1 h
    rw [List.foldlM_cons, hy, List.foldl_cons]
    exact ih hys _

/-- However a sum is put together, its value is that of its summands from left to right. -/
theorem meaning_ofSum (hsub : ∀ a b : α, a - b = a + -b)
    (h : ∀ y ∈ ys, y.1 ∈ Series.summands.operators) (x : Term) :
    ys.foldlM (operate other) (meaning other x) = some (meaning other (ofSum x ys)) := by
  unfold ofSum
  split
  · next hnil => rw [List.map_eq_nil_iff.1 hnil, List.foldlM_nil, Option.pure_def]
  split
  · next hminus =>
    obtain ⟨⟨op, y⟩, rfl, hop⟩ := List.map_eq_singleton_iff.1 hminus
    subst hop
    rfl
  · rw [meaning_sum, List.foldl_map]
    exact foldlM_operate (v := id) (fun y hy => operate_summand hsub (h y hy)) _

/-- However a product is put together, its value is that of its factors from left to right. -/
theorem meaning_ofProduct (h : ∀ y ∈ ys, y.1 ∈ Series.factors.operators) (x : Term) :
    ys.foldlM (operate other) (meaning other x) = some (meaning other (ofProduct x ys)) := by
  unfold ofProduct
  split
  · next hnil => rw [List.isEmpty_iff.1 hnil, List.foldlM_nil, Option.pure_def]
  split
  · exact foldlM_operate (fun y hy => operate_node (h y hy)) x
  · next hdivided =>
    have htimes : ∀ y ∈ ys, y.1 = "*" := by
      intro y hy
      have hslash : y.1 ≠ "/" := fun hop =>
        hdivided (List.any_eq_true.2 ⟨y, hy, beq_iff_eq.2 hop⟩)
      simpa [Series.operators, hslash] using h y hy
    rw [meaning_product, List.foldl_map]
    exact foldlM_operate (v := id) (fun y hy => operate_factor (htimes y hy)) _

end Meaning

end Term

/-- The term of a chain, from its first operand and the others. -/
def Chain.term : Chain → Term → List (Token × Term) → Term
  | factors => .ofProduct
  | summands => .ofSum

theorem Chain.meaning_term {α : Type*} [Add α] [Neg α] [Sub α] [Mul α] [Div α]
    {other : Term → α} (hsub : ∀ a b : α, a - b = a + -b) (k : Chain) {ys : List (Token × Term)}
    (h : ∀ y ∈ ys, y.1 ∈ k.series.operators) (x : Term) :
    ys.foldlM (Term.operate other) (Term.meaning other x) =
      some (Term.meaning other (k.term x ys)) := by
  cases k with
  | factors => exact Term.meaning_ofProduct h x
  | summands => exact Term.meaning_ofSum hsub h x

namespace Grammar

variable {ctx : Context}

/-- The operands that are read one after the other from the first cursor, each with the operator
in front of it, until the series ends at the second cursor. -/
inductive Continues (ctx : Context) (k : Series) : Cursor → List (Token × Term) → Cursor → Prop
  | stop {c} (hjoint : k.joint? c.lookahead = none) : Continues ctx k c [] c
  | step {c j y later c'} (hjoint : k.joint? c.lookahead = some j)
      (hy : phrase ctx .terms k.operand (c.past j) () = .ok y ())
      (hlater : Continues ctx k y.next later c') :
      Continues ctx k c ((j.operator, y.value) :: later) c'

theorem Continues.operator_mem {k : Series} {c c' : Cursor} {later : List (Token × Term)}
    (h : Continues ctx k c later c') : ∀ y ∈ later, y.1 ∈ k.operators := by
  induction h with
  | stop => exact fun _ hy => absurd hy List.not_mem_nil
  | step hjoint _ _ ih => exact List.forall_mem_cons.2 ⟨Series.operator_mem hjoint, ih⟩

/-- The tokens determine the operands. -/
theorem Continues.unique {k : Series} {c c₁ c₂ : Cursor} {later later' : List (Token × Term)}
    (h : Continues ctx k c later c₁) (h' : Continues ctx k c later' c₂) :
    later = later' ∧ c₁ = c₂ := by
  induction h generalizing later' with
  | stop hjoint =>
    cases h' with
    | stop => exact ⟨rfl, rfl⟩
    | step hjoint' => exact absurd (hjoint.symm.trans hjoint') (by simp)
  | step hjoint hy _ ih =>
    cases h' with
    | stop hjoint' => exact absurd (hjoint.symm.trans hjoint') (by simp)
    | step hjoint' hy' hlater' =>
      obtain rfl := Option.some.inj (hjoint.symm.trans hjoint')
      cases hy.symm.trans hy'
      obtain ⟨rfl, rfl⟩ := ih hlater'
      exact ⟨rfl, rfl⟩

/-- What is read as further operands of a series. The induction is on the operands. -/
theorem continues_of_more {k : Series} {c c' : Cursor} {later : List (Token × Term)}
    {hsize : c'.size < c.size + 1} (h : Yields (more ctx .terms k c) ⟨later, c', hsize⟩) :
    Continues ctx k c later c' := by
  induction later generalizing c with
  | nil =>
    unfold more at h
    split at h
    · next hjoint =>
      cases Yields.pure_iff.1 h
      exact .stop hjoint
    · obtain ⟨y, -, h⟩ := Yields.bind_iff.1 h
      obtain ⟨later, -, h⟩ := Yields.bind_iff.1 h
      cases Yields.pure_iff.1 h
  | cons z zs ih =>
    unfold more at h
    split at h
    · cases Yields.pure_iff.1 h
    · next hjoint =>
      obtain ⟨y, hy, h⟩ := Yields.bind_iff.1 h
      obtain ⟨later, hlater, h⟩ := Yields.bind_iff.1 h
      cases Yields.pure_iff.1 h
      exact .step hjoint hy (ih hlater)

/-- A chain is read as its first operand and further ones. -/
theorem exists_continues {k : Chain} {c : Cursor} {r : Read c.size Term}
    (h : phrase ctx .terms (Tail.chain k).phrase c () = .ok r ()) :
    ∃ x later, phrase ctx .terms k.series.operand c () = .ok x () ∧
      Continues ctx k.series x.next later r.next ∧ r.value = k.term x.value later := by
  have hseries : ∃ s, Yields (series ctx .terms k.series c) s ∧ s.next = r.next ∧
      r.value = k.term s.value.1 s.value.2 := by
    cases k with
    | factors =>
      unfold phrase at h
      obtain ⟨s, hs, h⟩ := Yields.bind_iff.1 h
      simp only [Builder.terms_makeProduct, pure_bind] at h
      cases Yields.pure_iff.1 h
      exact ⟨s, hs, rfl, rfl⟩
    | summands =>
      unfold phrase at h
      obtain ⟨s, hs, h⟩ := Yields.bind_iff.1 h
      simp only [Builder.terms_makeSum, pure_bind] at h
      cases Yields.pure_iff.1 h
      exact ⟨s, hs, rfl, rfl⟩
  obtain ⟨s, hs, hnext, hvalue⟩ := hseries
  unfold series at hs
  obtain ⟨x, hx, hs⟩ := Yields.bind_iff.1 hs
  obtain ⟨later, hlater, hs⟩ := Yields.bind_iff.1 hs
  cases Yields.pure_iff.1 hs
  exact ⟨x, later.value, hx, hnext ▸ continues_of_more hlater, hvalue⟩

section Meaning

variable {α : Type*} [Add α] [Neg α] [Sub α] [Mul α] [Div α]

/-- From the first cursor to the second the operands of a chain are read, and applied from left
to right under the operators between them they come to `a`. -/
def FoldsTo (ctx : Context) (k : Chain) (other : Term → α) (c : Cursor) (a : α) (c' : Cursor) :
    Prop :=
  ∃ x later, phrase ctx .terms k.series.operand c () = .ok x () ∧
    Continues ctx k.series x.next later c' ∧
    later.foldlM (Term.operate other) (Term.meaning other x.value) = some a

theorem FoldsTo.unique {k : Chain} {other : Term → α} {c c₁ c₂ : Cursor} {a b : α}
    (h : FoldsTo ctx k other c a c₁) (h' : FoldsTo ctx k other c b c₂) : a = b ∧ c₁ = c₂ := by
  obtain ⟨x, later, hx, hlater, ha⟩ := h
  obtain ⟨x', later', hx', hlater', hb⟩ := h'
  cases hx.symm.trans hx'
  obtain ⟨rfl, rfl⟩ := hlater.unique hlater'
  exact ⟨Option.some.inj (ha.symm.trans hb), rfl⟩

/-- Chains keep their meaning. What is read as a sum or a product is worth what its operands are
from left to right under the operators between them, in every structure in which subtracting is
adding what is negated. -/
theorem foldsTo_of_phrase (hsub : ∀ a b : α, a - b = a + -b) (other : Term → α) {k : Chain}
    {c : Cursor} {r : Read c.size Term}
    (h : phrase ctx .terms (Tail.chain k).phrase c () = .ok r ()) :
    FoldsTo ctx k other c (Term.meaning other r.value) r.next := by
  obtain ⟨x, later, hx, hlater, hvalue⟩ := exists_continues h
  refine ⟨x, later, hx, hlater, ?_⟩
  rw [hvalue]
  exact Chain.meaning_term hsub k hlater.operator_mem x.value

end Meaning

/-- Numerals have their values in the integers, and everything else is zero. -/
def integerValue : Term → Int
  | .leaf (.int n) => n
  | _ => 0

/-- A sum with two subtractions, and a product with a division and a factor in brackets. -/
theorem foldsTo_of_mixed_chains :
    (∀ a b : Int, a - b = a + -b) ∧
    (∃ h, phrase .standard .terms .sum
        (.start ["7", "-", "2", "+", "3", "-", "4", Token.endMark]) () =
      .ok ⟨.node "+" [.leaf (.int 7), .node ".-" [.leaf (.int 2)] [], .leaf (.int 3),
        .node ".-" [.leaf (.int 4)] []] [], ⟨7, [Token.endMark]⟩, h⟩ ()) ∧
    FoldsTo .standard .summands integerValue
      (.start ["7", "-", "2", "+", "3", "-", "4", Token.endMark]) 4 ⟨7, [Token.endMark]⟩ ∧
    (∃ h, phrase .standard .terms .product
        (.start ["24", "/", "2", "(", "3", ")", Token.endMark]) () =
      .ok ⟨.node "*" [.node "/" [.leaf (.int 24), .leaf (.int 2)] [], .leaf (.int 3)] [],
        ⟨6, [Token.endMark]⟩, h⟩ ()) ∧
    FoldsTo .standard .factors integerValue
      (.start ["24", "/", "2", "(", "3", ")", Token.endMark]) 36 ⟨6, [Token.endMark]⟩ := by
  have hsub (a b : Int) : a - b = a + -b := sub_eq_add_neg a b
  have hsum : phrase .standard .terms (Tail.chain .summands).phrase
      (.start ["7", "-", "2", "+", "3", "-", "4", Token.endMark]) () =
        .ok ⟨.node "+" [.leaf (.int 7), .node ".-" [.leaf (.int 2)] [], .leaf (.int 3),
          .node ".-" [.leaf (.int 4)] []] [], ⟨7, [Token.endMark]⟩, by decide⟩ () := by cbv
  have hproduct : phrase .standard .terms (Tail.chain .factors).phrase
      (.start ["24", "/", "2", "(", "3", ")", Token.endMark]) () =
        .ok ⟨.node "*" [.node "/" [.leaf (.int 24), .leaf (.int 2)] [], .leaf (.int 3)] [],
          ⟨6, [Token.endMark]⟩, by decide⟩ () := by cbv
  exact ⟨hsub, ⟨_, hsum⟩, foldsTo_of_phrase hsub integerValue hsum, ⟨_, hproduct⟩,
    foldsTo_of_phrase hsub integerValue hproduct⟩

end Grammar

end TermReader
