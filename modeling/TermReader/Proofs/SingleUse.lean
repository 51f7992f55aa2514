import TermReader.Proofs.WellFormed
import Mathlib.Algebra.Order.Group.Multiset
import Mathlib.Data.Multiset.Range
import Mathlib.Tactic.Abel

/-!
Every value that is built is used once. Reading holds on to the values that it has built and
not yet used; each construction takes its parts out of what is held and adds the new value, so
in the end the value of the whole expression is all that is held. A record of the
constructions is therefore a tree: every construction is part of exactly one later
construction, except for the last, which is the root.
-/

namespace TermReader

/-- A computation uses up the values it is given and leaves others, whatever else is held
beside them. -/
def Spends {σ τ α : Type} (P : Multiset τ → σ → Prop) (given : Multiset τ)
    (left : α → Multiset τ) (m : Reading σ α) : Prop :=
  ∀ ⦃held s x s'⦄, P (held + given) s → m s = .ok x s' → P (held + left x) s'

namespace Spends

variable {σ τ α β γ : Type} {P : Multiset τ → σ → Prop} {given : Multiset τ}
  {left : α → Multiset τ} {left' : β → Multiset τ}

theorem pure {x : α} (h : given = left x) : Spends P given left (Pure.pure x : Reading σ α) := by
  intro held s y s' hs hy
  cases hy
  rwa [← h]

theorem throw (e : Failure) : Spends P given left (throw e : Reading σ α) := by
  intro held s y s' _ hy
  cases hy

theorem bind {m : Reading σ α} {f : α → Reading σ β} (hm : Spends P given left m)
    (hf : ∀ x, Spends P (left x) left' (f x)) : Spends P given left' (m >>= f) := by
  intro held s y s' hs hy
  simp only [Bind.bind, EStateM.bind] at hy
  cases hr : m s with
  | ok x t =>
    rw [hr] at hy
    exact hf x (hm hs hr) hy
  | error e t =>
    rw [hr] at hy
    cases hy

/-- What is not needed for a while is held back. -/
theorem frame {m : Reading σ α} (hm : Spends P given left m) (kept : Multiset τ) :
    Spends P (kept + given) (fun x => kept + left x) m := by
  intro held s x s' hs hx
  rw [← add_assoc] at hs ⊢
  exact hm hs hx

theorem of_eq {m : Reading σ α} {given' : Multiset τ} (hm : Spends P given' left m)
    (h : given = given') : Spends P given left m :=
  h ▸ hm

theorem ite {p : Prop} [Decidable p] {m m' : Reading σ α} (h : p → Spends P given left m)
    (h' : ¬ p → Spends P given left m') : Spends P given left (if p then m else m') := by
  split
  · exact h ‹_›
  · exact h' ‹_›

theorem expect {f : Unit → Reading σ β} (c : Cursor) (symbol : Token) (reason : Reason)
    (hf : Spends P given left' (f ())) :
    Spends P given left' (c.expect symbol reason >>= f) := by
  have hexpect : Spends P given (fun _ => given) (c.expect symbol reason) :=
    ite (fun _ => pure rfl) fun _ => throw _
  exact bind hexpect fun _ => hf

/-- Each value of a list is replaced by another one. -/
theorem mapM {f : γ → Reading σ τ} {value : γ → τ}
    (hf : ∀ y, Spends P {value y} (fun x => {x}) (f y)) (ys : List γ) :
    Spends P ↑(ys.map value) Multiset.ofList (ys.mapM f) := by
  induction ys with
  | nil => exact pure rfl
  | cons y ys ih =>
    rw [List.mapM_cons]
    have hrest : (↑((y :: ys).map value) : Multiset τ) = ↑(ys.map value) + {value y} := by
      rw [List.map_cons, ← Multiset.cons_coe, ← Multiset.singleton_add, add_comm]
    refine (bind ((hf y).frame _) fun x => ?_).of_eq hrest
    refine bind ((ih.frame {x}).of_eq (add_comm _ _)) fun xs => pure ?_
    rfl

/-- The values of a list are taken in one by one. -/
theorem foldlM {f : τ → γ → Reading σ τ} {value : γ → τ}
    (hf : ∀ x y, Spends P ({x} + {value y}) (fun z => {z}) (f x y)) (ys : List γ) (x : τ) :
    Spends P ↑(x :: ys.map value) (fun z => {z}) (ys.foldlM f x) := by
  induction ys generalizing x with
  | nil => exact pure rfl
  | cons y ys ih =>
    rw [List.foldlM_cons]
    have hfirst : (↑(x :: (y :: ys).map value) : Multiset τ) =
        ↑(ys.map value) + ({x} + {value y}) := by
      rw [add_comm]
      rfl
    refine (bind ((hf x y).frame _) fun z => ?_).of_eq hfirst
    refine (ih z).of_eq ?_
    rw [add_comm]
    rfl

/-- Reading from nothing, and going on with what has been read beside what is held. -/
theorem read {n : Nat} {m : Reading σ (Read n α)} {f : Read n α → Reading σ β}
    (hm : Spends P 0 (fun r => left r.value) m)
    (hf : ∀ x c h, Spends P (given + left x) left' (f ⟨x, c, h⟩)) :
    Spends P given left' (m >>= f) := by
  refine (bind (hm.frame given) fun r => ?_).of_eq (add_zero given).symm
  exact hf r.value r.next r.size_lt

theorem done {n : Nat} {x : α} {c : Cursor} (hc : c.size < n) (h : given = left x) :
    Spends P given (fun r : Read n α => left r.value) (Pure.pure ⟨x, c, hc⟩ : Reading σ _) :=
  pure h

/-- What has been built is the value that is read. -/
theorem built {n : Nat} {m : Reading σ τ} {c : Cursor} (hc : c.size < n)
    (hm : Spends P given (fun x => {x}) m) :
    Spends P given (fun r : Read n τ => {r.value}) (m >>= fun x => Pure.pure ⟨x, c, hc⟩) :=
  bind hm fun _ => pure rfl

end Spends

/-- Each construction takes its parts out of the values that are held, and adds the new one. -/
structure Builder.Spending {σ τ : Type} (b : Builder σ τ) (P : Multiset τ → σ → Prop) :
    Prop where
  leaf : ∀ l, Spends P 0 (fun x => {x}) (b.makeLeaf l)
  node : ∀ op args dims, Spends P (↑args + ↑dims) (fun x => {x}) (b.makeNode op args dims)

namespace Builder.Spending

variable {σ τ : Type} {b : Builder σ τ} {P : Multiset τ → σ → Prop} (hb : b.Spending P)

include hb

/-- A construction without dimensions. -/
theorem operator (op : String) (args : List τ) :
    Spends P ↑args (fun x => {x}) (b.makeNode op args []) :=
  (hb.node op args []).of_eq (add_zero _).symm

theorem makeSum (first : τ) (later : List (Token × τ)) :
    Spends P ↑(first :: later.map (·.2)) (fun x => {x}) (b.makeSum first later) := by
  rw [makeSum_eq]
  refine .ite (fun hnone => ?_) fun _ => .ite (fun _ => hb.operator "-" _) fun _ => ?_
  · obtain rfl : later = [] := List.map_eq_nil_iff.1 hnone
    exact .pure rfl
  -- the summands that are subtracted are exchanged for their negations
  have hsigned : ∀ y : Token × τ, Spends P {y.2} (fun x => {x})
      (if y.1 = "-" then b.makeNode ".-" [y.2] [] else pure y.2) :=
    fun y => .ite (fun _ => hb.operator ".-" [y.2]) fun _ => .pure rfl
  exact .bind ((Spends.mapM hsigned later).frame {first}) fun xs =>
    hb.operator "+" (first :: xs)

theorem makeProduct (first : τ) (later : List (Token × τ)) :
    Spends P ↑(first :: later.map (·.2)) (fun x => {x}) (b.makeProduct first later) := by
  unfold Builder.makeProduct
  refine .ite (fun hnone => ?_) fun _ => .ite (fun _ => ?_) fun _ => hb.operator "*" _
  · obtain rfl : later = [] := List.isEmpty_iff.1 hnone
    exact .pure rfl
  · exact .foldlM (fun x y => hb.operator y.1 [x, y.2]) later first

end Builder.Spending

namespace Grammar

variable {σ τ : Type} {b : Builder σ τ} {P : Multiset τ → σ → Prop}

/-- The values of the operands behind the first one of a series. -/
def laterValues (later : List (Token × τ)) : Multiset τ := later.map (·.2)

/-- The values of the operands of a series. -/
def operandValues (xs : τ × List (Token × τ)) : Multiset τ := xs.1 :: xs.2.map (·.2)

/-- Behind its arguments a call uses them and its dimensions. -/
theorem spends_close (ctx : Context) (hb : b.Spending P) (name : Token) (args dims : List τ)
    {n : Nat} (c : Cursor) (h : c.next.size < n) :
    Spends P (↑dims + ↑args) (fun r => {r.value})
      (c.expect ")" .expectedParen >>= fun _ =>
        if args.length ∈ ctx.arities name then
          b.makeNode name args dims >>= fun x => pure (⟨x, c.next, h⟩ : Read n τ)
        else throw (c.next.reject .wrongArgumentCount (some (callDetail name args.length)))) := by
  refine .expect _ _ _ (.ite (fun _ => ?_) fun _ => .throw _)
  exact .built _ ((hb.node name args dims).of_eq (add_comm _ _))

/-- Every part of the reader leaves the values it yields, and no others. The induction is on
the tokens left and the rank of the phrase, as for reading. -/
theorem spends (ctx : Context) (hb : b.Spending P) :
    (∀ p c, Spends P 0 (fun r => {r.value}) (phrase ctx b p c)) ∧
    (∀ c h, Spends P 0 (fun r => {r.value}) (call ctx b c h)) ∧
    (∀ c, Spends P 0 (fun r => .ofList r.value) (arguments ctx b c)) ∧
    (∀ k c, Spends P 0 (fun r => operandValues r.value) (series ctx b k c)) ∧
    (∀ k c, Spends P 0 (fun r => laterValues r.value) (more ctx b k c)) ∧
    (∀ c, Spends P 0 (fun r => .ofList r.value) (dimensions ctx b c)) := by
  refine phrase.mutual_induct ctx _ _ _ _ _ _ ?tier ?sum ?product ?power ?minus ?not ?plain
    ?ended ?leaf ?excess ?call ?paren ?bar ?matrix ?vector ?set ?unexpected ?row ?noRow ?empty
    ?elements ?list ?arguments ?series ?stop ?step ?dimensions ?noDimensions
  case tier =>
    intro c t _ ihleft ihright
    unfold phrase
    refine .read ihleft fun x c₁ h₁ => .ite (fun _ => ?_) fun _ => .done _ rfl
    refine .read (ihright c₁ h₁) fun y c₂ h₂ => ?_
    exact .built _ (hb.operator _ [x, y])
  case sum =>
    intro c ih
    unfold phrase
    exact .read ih fun _ _ _ => .built _ ((hb.makeSum _ _).of_eq (zero_add _))
  case product =>
    intro c ih
    unfold phrase
    exact .read ih fun _ _ _ => .built _ ((hb.makeProduct _ _).of_eq (zero_add _))
  case power =>
    intro c ihbase ihexponent
    unfold phrase
    refine .read ihbase fun x c₁ h₁ => .ite (fun _ => ?_) fun _ => .done _ rfl
    refine .read (ihexponent c₁ h₁) fun y c₂ h₂ => ?_
    exact .built _ (hb.operator "^" [x, y])
  case minus =>
    intro c hminus _ ih
    unfold phrase
    simp only [dif_pos hminus]
    exact .read ih fun x _ _ => .built _ (hb.operator ".-" [x])
  case not =>
    intro c hminus hnot _ ih
    unfold phrase
    simp only [dif_neg hminus, dif_pos hnot]
    exact .read ih fun x _ _ => .built _ (hb.operator "!" [x])
  case plain =>
    intro c hminus hnot ih ihfirst ihsecond
    unfold phrase
    simp only [dif_neg hminus, dif_neg hnot]
    refine .read ih fun x c₁ h₁ => .ite (fun _ => ?_) fun _ => .done _ rfl
    refine .read (ihfirst c₁ h₁) fun i c₂ h₂ => .ite (fun _ => ?_) fun _ => ?_
    · refine .read (ihsecond c₁ h₁ c₂ h₂) fun j c₃ h₃ => ?_
      exact .bind (hb.operator "index2" [x, i, j]) fun _ => .expect _ _ _ (.done _ rfl)
    · exact .bind (hb.operator "index1" [x, i]) fun _ => .expect _ _ _ (.done _ rfl)
  case ended =>
    intro c hend
    unfold phrase
    simp only [dif_pos hend]
    exact .throw _
  case leaf =>
    intro c hend _ l hopening
    unfold phrase
    simp only [dif_neg hend, hopening]
    exact .built _ (hb.leaf l)
  case excess =>
    intro c hend _ digits hopening
    unfold phrase
    simp only [dif_neg hend, hopening]
    exact .throw _
  case call =>
    intro c hend _ hopening ih
    unfold phrase
    simpa only [dif_neg hend, hopening] using ih
  case paren =>
    intro c hend _ hopening ih
    unfold phrase
    simp only [dif_neg hend, hopening]
    exact .read ih fun _ _ _ => .expect _ _ _ (.done _ rfl)
  case bar =>
    intro c hend _ hopening ih
    unfold phrase
    simp only [dif_neg hend, hopening]
    exact .read ih fun x _ _ => .expect _ _ _ (.built _ (hb.operator "abs" [x]))
  case matrix =>
    intro c hend _ hopening hrow ih
    unfold phrase
    simp only [dif_neg hend, hopening, if_pos hrow]
    refine .read ih fun _ _ _ => .expect _ _ _ (.built _ ?_)
    exact (hb.operator "matrix" _).of_eq (zero_add _)
  case vector =>
    intro c hend _ hopening hrow ih
    unfold phrase
    simp only [dif_neg hend, hopening, if_neg hrow]
    exact .read ih fun _ _ _ => .done _ rfl
  case set =>
    intro c hend _ hopening ih
    unfold phrase
    simp only [dif_neg hend, hopening]
    refine .read ih fun _ _ _ => .expect _ _ _ (.built _ ?_)
    exact (hb.operator "set" _).of_eq (zero_add _)
  case unexpected =>
    intro c hend _ hopening
    unfold phrase
    simp only [dif_neg hend, hopening]
    exact .throw _
  case row =>
    intro c hopen _ ih
    unfold phrase
    simp only [dif_pos hopen]
    exact .read ih fun _ _ _ => .done _ rfl
  case noRow =>
    intro c hopen
    unfold phrase
    simp only [dif_neg hopen]
    exact .throw _
  case empty =>
    intro c hclose
    unfold phrase
    simp only [dif_pos hclose]
    exact .built _ (hb.operator "vec" [])
  case elements =>
    intro c hclose ih
    unfold phrase
    simp only [dif_neg hclose]
    refine .read ih fun _ _ _ => .expect _ _ _ (.built _ ?_)
    exact (hb.operator "vec" _).of_eq (zero_add _)
  case list =>
    intro c hend _ ihdims ihargs ihoperand
    unfold call
    refine .read ihdims fun dims c₁ h₁ => .ite (fun _ => ?_) fun _ => ?_
    · rw [zero_add]
      refine .ite (fun _ => ?_) fun _ => .read (ihargs c₁ h₁) fun args c₂ _ =>
        spends_close ctx hb _ args dims c₂ _
      have hnone : Spends P 0 (fun r : Read _ (List τ) => ↑r.value)
          (pure ⟨[], c₁.next, Nat.lt_succ_self _⟩) :=
        .done _ rfl
      exact .read hnone fun args c₂ _ => spends_close ctx hb _ args dims c₂ _
    · refine .ite (fun hone => ?_) fun _ => .throw _
      obtain rfl : dims = [] := List.isEmpty_iff.1 hone.2
      exact .read (ihoperand c₁ h₁) fun x _ _ => .built _ (hb.operator _ [x])
  case arguments =>
    intro c ih
    unfold arguments
    exact .read ih fun _ _ _ => .done _ (zero_add _)
  case series =>
    intro k c _ ihfirst ihmore
    unfold series
    exact .read ihfirst fun x c₁ h₁ => .read (ihmore c₁ h₁) fun _ _ _ => .done _ rfl
  case stop =>
    intro k c hjoint
    unfold more
    simp only [hjoint]
    exact .done _ rfl
  case step =>
    intro k c j hjoint _ _ _ ihfirst ihmore
    unfold more
    simp only [hjoint]
    exact .read ihfirst fun x c₁ h₁ => .read (ihmore c₁ h₁) fun _ _ _ => .done _ rfl
  case dimensions =>
    intro c hopen _ ih
    unfold dimensions
    simp only [if_pos hopen]
    exact .read ih fun _ _ _ => .expect _ _ _ (.done _ (zero_add _))
  case noDimensions =>
    intro c hopen
    unfold dimensions
    simp only [if_neg hopen]
    exact .done _ rfl

/-- When a whole token stream has been read, its value is all that is held. -/
theorem spends_read (ctx : Context) (hb : b.Spending P) (tokens : List Token) :
    Spends P 0 (fun x => {x}) (read ctx b tokens) := by
  unfold read
  refine .read ((spends ctx hb).1 .term (Cursor.start tokens)) fun _ _ _ => ?_
  exact .ite (fun _ => .pure rfl) fun _ => .throw _

end Grammar

/-- The earlier constructions that a construction is made of. -/
def Call.uses : Call → List Nat
  | leaf _ => []
  | node _ args dims => args ++ dims

/-- What is held and what has been used are all the constructions so far, each once, and no
construction is made of itself or of later ones. The constructions are given latest first. -/
structure SingleUse (held : Multiset Nat) (made : List Call) : Prop where
  balanced : held + ↑(made.flatMap Call.uses) = Multiset.range made.length
  earlier : ∀ ⦃i : Nat⦄ ⦃call : Call⦄, made.reverse[i]? = some call → ∀ j ∈ call.uses, j < i

namespace SingleUse

theorem nil : SingleUse 0 [] where
  balanced := rfl
  earlier := fun i call h => by simp at h

/-- A construction out of values that are held. -/
theorem push {held : Multiset Nat} {made : List Call} (call : Call)
    (h : SingleUse (held + ↑call.uses) made) :
    SingleUse (held + {made.length}) (call :: made) where
  balanced := by
    calc
      held + {made.length} + ↑((call :: made).flatMap Call.uses)
          = held + {made.length} + (↑call.uses + ↑(made.flatMap Call.uses)) := rfl
      _ = {made.length} + (held + ↑call.uses + ↑(made.flatMap Call.uses)) := by abel
      _ = {made.length} + Multiset.range made.length := by rw [h.balanced]
      _ = Multiset.range (call :: made).length := by
        rw [List.length_cons, Multiset.range_succ, Multiset.singleton_add]
  earlier := by
    intro i call' hi j hj
    rw [List.reverse_cons] at hi
    by_cases hlt : i < made.length
    · rw [List.getElem?_append_left (by simpa using hlt)] at hi
      exact h.earlier hi j hj
    · rw [List.getElem?_append_right (by simpa using hlt), List.length_reverse] at hi
      obtain ⟨hlast, hcall⟩ := List.getElem?_eq_some_iff.1 hi
      obtain rfl : call = call' := by simpa using hcall
      -- the parts are held, and so they are among the constructions so far
      have hmem : j ∈ held + ↑call.uses + ↑(made.flatMap Call.uses) :=
        Multiset.mem_add.2 (.inl (Multiset.mem_add.2 (.inr hj)))
      rw [h.balanced, Multiset.mem_range] at hmem
      omega

variable {root : Nat} {made : List Call}

theorem lt_of_mem_uses {held : Multiset Nat} (h : SingleUse held made) {j : Nat}
    (hj : j ∈ made.flatMap Call.uses) : j + 1 < made.length := by
  obtain ⟨call, hcall, hj⟩ := List.mem_flatMap.1 hj
  obtain ⟨i, hi⟩ := List.mem_iff_getElem?.1 (List.mem_reverse.2 hcall)
  have hlt : i < made.length := by
    simpa using (List.getElem?_eq_some_iff.1 hi).1
  have := h.earlier hi j hj
  omega

/-- The last construction is used by none, so it is the one that is held. -/
theorem length_eq (h : SingleUse {root} made) : made.length = root + 1 := by
  have hroot : root < made.length := by
    rw [← Multiset.mem_range, ← h.balanced]
    exact Multiset.mem_add.2 (.inl (Multiset.mem_singleton_self root))
  have hlast : made.length - 1 ∈ ({root} : Multiset Nat) + ↑(made.flatMap Call.uses) := by
    rw [h.balanced, Multiset.mem_range]
    omega
  obtain heq | hused := Multiset.mem_add.1 hlast
  · have := Multiset.mem_singleton.1 heq
    omega
  · have := h.lt_of_mem_uses hused
    omega

theorem count_uses (h : SingleUse {root} made) {i : Nat} (hi : i < root) :
    (made.flatMap Call.uses).count i = 1 := by
  have hcount : (Multiset.range made.length).count i = 1 :=
    Multiset.count_eq_one_of_mem (Multiset.nodup_range _)
      (Multiset.mem_range.2 (by rw [h.length_eq]; omega))
  rw [← h.balanced, Multiset.count_add, Multiset.count_singleton, if_neg (by omega),
    Multiset.coe_count] at hcount
  omega

end SingleUse

theorem Builder.calls_spending : Builder.calls.Spending SingleUse where
  leaf l := by
    intro held s x s' hs hx
    cases hx
    exact .push (.leaf l) hs
  node op args dims := by
    intro held s x s' hs hx
    cases hx
    exact .push (.node op args dims) hs

namespace Expression

/-- The constructions that parsing makes form a tree without waste: each is made of earlier
ones, each but the last is part of exactly one other, once, and the last is the root. -/
theorem parse_calls_singleUse {ρ : Type} {ctx : Context} {splits : Bool} {chooser : Chooser ρ}
    {source : String} {random : ρ} {root : Nat} {made : List Call}
    (h : (parse ctx .calls splits chooser source random []).result = .ok root made) :
    let calls := made.reverse
    (∀ (i : Nat) call, calls[i]? = some call → ∀ j ∈ call.uses, j < i) ∧
      (∀ i, i + 1 < calls.length → (calls.flatMap Call.uses).count i = 1) ∧
      calls.length = root + 1 := by
  have hsingle : SingleUse {root} made := by
    have hnone : SingleUse (0 + 0) [] := .nil
    simpa using Grammar.spends_read ctx Builder.calls_spending _ hnone h
  have hlength : made.reverse.length = root + 1 := by
    rw [List.length_reverse, hsingle.length_eq]
  refine ⟨fun i call hcall => hsingle.earlier hcall, fun i hi => ?_, hlength⟩
  rw [((List.reverse_perm made).flatMap_right Call.uses).count_eq]
  exact hsingle.count_uses (by omega)

/-- A dimension, two steps of a division and a negated summand. -/
theorem parse_calls_quotient :
    let calls : List Call :=
      [.leaf (.var "x"), .leaf (.var "n"), .leaf (.int 2), .node "eye" [] [1, 2], .leaf (.int 3),
        .leaf (.var "x"), .node "/" [3, 4] [], .node "/" [6, 5] [], .leaf (.int 1),
        .node ".-" [7] [], .node "+" [0, 9, 8] []]
    (parse .standard .calls false .first "x-eye<n,2>()/3/x+1" () []).result =
        .ok 10 calls.reverse ∧
      (∀ (i : Nat) call, calls[i]? = some call → ∀ j ∈ call.uses, j < i) ∧
      (∀ i, i + 1 < calls.length → (calls.flatMap Call.uses).count i = 1) ∧
      calls.length = 10 + 1 := by
  intro calls
  have h : (parse .standard .calls false .first "x-eye<n,2>()/3/x+1" () []).result =
      .ok 10 calls.reverse := by
    cbv
  refine ⟨h, ?_⟩
  have htree := parse_calls_singleUse h
  rwa [List.reverse_reverse] at htree

end Expression

end TermReader
