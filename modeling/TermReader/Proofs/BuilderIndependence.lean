import TermReader.Expression
import Mathlib.Data.List.Forall2

/-!
Reading never looks into the values it has built. Two builders whose values and
states correspond stay in correspondence through every phrase: both runs read
the same tokens, build in the same order and fail in the same way. For a builder
without a state of its own this makes the value that is read the fold of the
term that is read.
-/

namespace TermReader

/-- What two runs have in common: both fail alike, or both succeed with
corresponding values. The states correspond in either case. -/
inductive Matching {σ₁ σ₂ α₁ α₂ : Type} (S : σ₁ → σ₂ → Prop) (Q : α₁ → α₂ → Prop) :
    EStateM.Result Failure σ₁ α₁ → EStateM.Result Failure σ₂ α₂ → Prop
  | ok {x₁ x₂ s₁ s₂} (hx : Q x₁ x₂) (hs : S s₁ s₂) : Matching S Q (.ok x₁ s₁) (.ok x₂ s₂)
  | error {e s₁ s₂} (hs : S s₁ s₂) : Matching S Q (.error e s₁) (.error e s₂)

/-- Two computations match from all states that correspond. -/
def Agree {σ₁ σ₂ α₁ α₂ : Type} (S : σ₁ → σ₂ → Prop) (Q : α₁ → α₂ → Prop)
    (m₁ : Reading σ₁ α₁) (m₂ : Reading σ₂ α₂) : Prop :=
  ∀ s₁ s₂, S s₁ s₂ → Matching S Q (m₁ s₁) (m₂ s₂)

namespace Agree

variable {σ₁ σ₂ α₁ α₂ β₁ β₂ : Type} {S : σ₁ → σ₂ → Prop} {Q : α₁ → α₂ → Prop}
  {P : β₁ → β₂ → Prop}

theorem pure {x₁ : α₁} {x₂ : α₂} (h : Q x₁ x₂) :
    Agree S Q (Pure.pure x₁ : Reading σ₁ α₁) (Pure.pure x₂ : Reading σ₂ α₂) :=
  fun _ _ hs => .ok h hs

theorem throw (e : Failure) :
    Agree S Q (throw e : Reading σ₁ α₁) (throw e : Reading σ₂ α₂) :=
  fun _ _ hs => .error hs

theorem bind {m₁ : Reading σ₁ α₁} {m₂ : Reading σ₂ α₂} {f₁ : α₁ → Reading σ₁ β₁}
    {f₂ : α₂ → Reading σ₂ β₂} (hm : Agree S Q m₁ m₂)
    (hf : ∀ x₁ x₂, Q x₁ x₂ → Agree S P (f₁ x₁) (f₂ x₂)) :
    Agree S P (m₁ >>= f₁) (m₂ >>= f₂) := by
  intro s₁ s₂ hs
  have h := hm s₁ s₂ hs
  simp only [Bind.bind, EStateM.bind]
  cases hr₁ : m₁ s₁ with
  | ok x₁ t₁ =>
    cases hr₂ : m₂ s₂ with
    | ok x₂ t₂ =>
      rw [hr₁, hr₂] at h
      cases h with
      | ok hx ht => exact hf x₁ x₂ hx t₁ t₂ ht
    | error e t₂ =>
      rw [hr₁, hr₂] at h
      cases h
  | error e t₁ =>
    cases hr₂ : m₂ s₂ with
    | ok x₂ t₂ =>
      rw [hr₁, hr₂] at h
      cases h
    | error e' t₂ =>
      rw [hr₁, hr₂] at h
      cases h with
      | error ht => exact .error ht

theorem ite {p : Prop} [Decidable p] {m₁ n₁ : Reading σ₁ α₁} {m₂ n₂ : Reading σ₂ α₂}
    (hm : p → Agree S Q m₁ m₂) (hn : ¬ p → Agree S Q n₁ n₂) :
    Agree S Q (if p then m₁ else n₁) (if p then m₂ else n₂) := by
  by_cases h : p
  · simpa only [if_pos h] using hm h
  · simpa only [if_neg h] using hn h

theorem expect (c : Cursor) (symbol : Token) (reason : Reason) :
    Agree S (fun _ _ => True) (c.expect symbol reason : Reading σ₁ Unit)
      (c.expect symbol reason : Reading σ₂ Unit) :=
  ite (fun _ => pure trivial) (fun _ => throw _)

theorem mapM {γ₁ γ₂ : Type} {f₁ : γ₁ → Reading σ₁ α₁} {f₂ : γ₂ → Reading σ₂ α₂}
    {C : γ₁ → γ₂ → Prop} (hf : ∀ y₁ y₂, C y₁ y₂ → Agree S Q (f₁ y₁) (f₂ y₂))
    {l₁ : List γ₁} {l₂ : List γ₂} (hl : List.Forall₂ C l₁ l₂) :
    Agree S (List.Forall₂ Q) (l₁.mapM f₁) (l₂.mapM f₂) := by
  induction hl with
  | nil => exact pure .nil
  | cons hy _ ih =>
    simp only [List.mapM_cons]
    exact bind (hf _ _ hy) fun x₁ x₂ hx =>
      bind ih fun xs₁ xs₂ hxs => pure (.cons hx hxs)

theorem foldlM {γ₁ γ₂ : Type} {f₁ : α₁ → γ₁ → Reading σ₁ α₁} {f₂ : α₂ → γ₂ → Reading σ₂ α₂}
    {C : γ₁ → γ₂ → Prop}
    (hf : ∀ x₁ x₂ y₁ y₂, Q x₁ x₂ → C y₁ y₂ → Agree S Q (f₁ x₁ y₁) (f₂ x₂ y₂))
    {l₁ : List γ₁} {l₂ : List γ₂} (hl : List.Forall₂ C l₁ l₂) {x₁ : α₁} {x₂ : α₂}
    (hx : Q x₁ x₂) : Agree S Q (l₁.foldlM f₁ x₁) (l₂.foldlM f₂ x₂) := by
  induction hl generalizing x₁ x₂ with
  | nil => exact pure hx
  | cons hy _ ih =>
    simp only [List.foldlM_cons]
    exact bind (hf _ _ _ _ hx hy) fun _ _ h => ih h

end Agree

/-- Two builders make corresponding values out of corresponding parts. -/
structure Builder.Corresponds {σ₁ σ₂ τ₁ τ₂ : Type} (b₁ : Builder σ₁ τ₁) (b₂ : Builder σ₂ τ₂)
    (S : σ₁ → σ₂ → Prop) (R : τ₁ → τ₂ → Prop) : Prop where
  leaf : ∀ l, Agree S R (b₁.makeLeaf l) (b₂.makeLeaf l)
  node : ∀ op {args₁ args₂ dims₁ dims₂}, List.Forall₂ R args₁ args₂ →
    List.Forall₂ R dims₁ dims₂ → Agree S R (b₁.makeNode op args₁ dims₁) (b₂.makeNode op args₂ dims₂)

/-- Operands that correspond one by one, behind equal operators. -/
def Operands {τ₁ τ₂ : Type} (R : τ₁ → τ₂ → Prop) :
    List (Token × τ₁) → List (Token × τ₂) → Prop :=
  List.Forall₂ fun y₁ y₂ => y₁.1 = y₂.1 ∧ R y₁.2 y₂.2

namespace Operands

variable {τ₁ τ₂ : Type} {R : τ₁ → τ₂ → Prop} {later₁ : List (Token × τ₁)}
  {later₂ : List (Token × τ₂)}

theorem values (h : Operands R later₁ later₂) :
    List.Forall₂ R (later₁.map (·.2)) (later₂.map (·.2)) := by
  induction h with
  | nil => exact .nil
  | cons hy _ ih => exact .cons hy.2 ih

theorem operators_eq (h : Operands R later₁ later₂) :
    later₁.map (·.1) = later₂.map (·.1) := by
  induction h with
  | nil => rfl
  | cons hy _ ih => simp only [List.map_cons, hy.1, ih]

end Operands

namespace Builder.Corresponds

variable {σ₁ σ₂ τ₁ τ₂ : Type} {b₁ : Builder σ₁ τ₁} {b₂ : Builder σ₂ τ₂}
  {S : σ₁ → σ₂ → Prop} {R : τ₁ → τ₂ → Prop} (hb : b₁.Corresponds b₂ S R)
  {first₁ : τ₁} {first₂ : τ₂} {later₁ : List (Token × τ₁)} {later₂ : List (Token × τ₂)}

include hb

theorem makeSum (hfirst : R first₁ first₂) (hlater : Operands R later₁ later₂) :
    Agree S R (b₁.makeSum first₁ later₁) (b₂.makeSum first₂ later₂) := by
  rw [makeSum_eq, makeSum_eq, hlater.operators_eq]
  refine .ite (fun _ => .pure hfirst) fun _ => .ite (fun _ => ?_) fun _ => ?_
  · exact hb.node "-" (.cons hfirst hlater.values) .nil
  · refine .bind (.mapM (Q := R) ?_ hlater) fun xs₁ xs₂ hxs => hb.node "+" (.cons hfirst hxs) .nil
    rintro ⟨op, x₁⟩ ⟨op', x₂⟩ ⟨rfl, hx⟩
    exact .ite (fun _ => hb.node ".-" (.cons hx .nil) .nil) (fun _ => .pure hx)

theorem makeProduct (hfirst : R first₁ first₂) (hlater : Operands R later₁ later₂) :
    Agree S R (b₁.makeProduct first₁ later₁) (b₂.makeProduct first₂ later₂) := by
  have hempty : later₁.isEmpty = later₂.isEmpty := by cases hlater <;> rfl
  have hdivision : later₁.any (·.1 == "/") = later₂.any (·.1 == "/") := by
    simpa only [List.any_map, Function.comp_def] using
      congrArg (List.any · (· == "/")) hlater.operators_eq
  unfold Builder.makeProduct
  rw [hempty, hdivision]
  refine .ite (fun _ => .pure hfirst) fun _ => .ite (fun _ => ?_) fun _ => ?_
  · refine .foldlM ?_ hlater hfirst
    rintro x₁ x₂ ⟨op, y₁⟩ ⟨op', y₂⟩ hx ⟨rfl, hy⟩
    exact hb.node op (.cons hx (.cons hy .nil)) .nil
  · exact hb.node "*" (.cons hfirst hlater.values) .nil

end Builder.Corresponds

/-- Corresponding values, read up to the same cursor. -/
def Read.Alike {τ₁ τ₂ : Type} (R : τ₁ → τ₂ → Prop) {n : Nat} (r₁ : Read n τ₁) (r₂ : Read n τ₂) :
    Prop :=
  R r₁.value r₂.value ∧ r₁.next = r₂.next

namespace Agree

variable {σ₁ σ₂ α₁ α₂ β₁ β₂ : Type} {S : σ₁ → σ₂ → Prop} {Q : α₁ → α₂ → Prop}
  {P : β₁ → β₂ → Prop} {n : Nat}

/-- Reading alike and going on from the common cursor. -/
theorem read {m₁ : Reading σ₁ (Read n α₁)} {m₂ : Reading σ₂ (Read n α₂)}
    {f₁ : Read n α₁ → Reading σ₁ β₁} {f₂ : Read n α₂ → Reading σ₂ β₂}
    (hm : Agree S (Read.Alike Q) m₁ m₂)
    (hf : ∀ x₁ x₂ c h, Q x₁ x₂ → Agree S P (f₁ ⟨x₁, c, h⟩) (f₂ ⟨x₂, c, h⟩)) :
    Agree S P (m₁ >>= f₁) (m₂ >>= f₂) := by
  refine bind hm ?_
  rintro ⟨x₁, c₁, h₁⟩ ⟨x₂, c₂, h₂⟩ ⟨hx, hc⟩
  dsimp only at hx hc
  subst hc
  exact hf x₁ x₂ c₁ h₁ hx

theorem done {x₁ : α₁} {x₂ : α₂} {c : Cursor} (h₁ h₂ : c.size < n) (hx : Q x₁ x₂) :
    Agree S (Read.Alike Q) (Pure.pure ⟨x₁, c, h₁⟩ : Reading σ₁ (Read n α₁))
      (Pure.pure ⟨x₂, c, h₂⟩ : Reading σ₂ (Read n α₂)) :=
  pure ⟨hx, rfl⟩

/-- What has been built is the value that is read. -/
theorem built {m₁ : Reading σ₁ α₁} {m₂ : Reading σ₂ α₂} (hm : Agree S Q m₁ m₂) {c : Cursor}
    (h₁ h₂ : c.size < n) :
    Agree S (Read.Alike Q) (m₁ >>= fun x => Pure.pure (⟨x, c, h₁⟩ : Read n α₁))
      (m₂ >>= fun x => Pure.pure (⟨x, c, h₂⟩ : Read n α₂)) :=
  bind hm fun _ _ hx => done h₁ h₂ hx

end Agree

namespace Grammar

variable {σ₁ σ₂ τ₁ τ₂ : Type} {b₁ : Builder σ₁ τ₁} {b₂ : Builder σ₂ τ₂}
  {S : σ₁ → σ₂ → Prop} {R : τ₁ → τ₂ → Prop}

/-- After its arguments a call is closed and checked before it is built. -/
theorem agree_close (ctx : Context) (hb : b₁.Corresponds b₂ S R) (name : Token)
    {args₁ dims₁ : List τ₁} {args₂ dims₂ : List τ₂} (hargs : List.Forall₂ R args₁ args₂)
    (hdims : List.Forall₂ R dims₁ dims₂) {n : Nat} (c : Cursor) (h : c.next.size < n) :
    Agree S (Read.Alike R)
      (c.expect ")" .expectedParen >>= fun _ =>
        if args₁.length ∈ ctx.arities name then
          b₁.makeNode name args₁ dims₁ >>= fun x => pure (⟨x, c.next, h⟩ : Read n τ₁)
        else throw (c.next.reject .wrongArgumentCount (some (callDetail name args₁.length))))
      (c.expect ")" .expectedParen >>= fun _ =>
        if args₂.length ∈ ctx.arities name then
          b₂.makeNode name args₂ dims₂ >>= fun x => pure (⟨x, c.next, h⟩ : Read n τ₂)
        else throw (c.next.reject .wrongArgumentCount (some (callDetail name args₂.length)))) := by
  rw [hargs.length_eq]
  refine .bind (.expect _ _ _) fun _ _ _ => .ite (fun _ => ?_) fun _ => .throw _
  exact .built (hb.node name hargs hdims) _ _

/-- Every part of the reader keeps the correspondence of two builders. The
induction is on the tokens left and the rank of the phrase, as for reading. -/
theorem agree (ctx : Context) (hb : b₁.Corresponds b₂ S R) :
    (∀ p c, Agree S (Read.Alike R) (phrase ctx b₁ p c) (phrase ctx b₂ p c)) ∧
    (∀ c h, Agree S (Read.Alike R) (call ctx b₁ c h) (call ctx b₂ c h)) ∧
    (∀ c, Agree S (Read.Alike (List.Forall₂ R)) (arguments ctx b₁ c) (arguments ctx b₂ c)) ∧
    (∀ k c, Agree S (Read.Alike fun y₁ y₂ => R y₁.1 y₂.1 ∧ Operands R y₁.2 y₂.2)
      (series ctx b₁ k c) (series ctx b₂ k c)) ∧
    (∀ k c, Agree S (Read.Alike (Operands R)) (more ctx b₁ k c) (more ctx b₂ k c)) ∧
    (∀ c, Agree S (Read.Alike (List.Forall₂ R)) (dimensions ctx b₁ c) (dimensions ctx b₂ c)) := by
  refine phrase.mutual_induct ctx _ _ _ _ _ _ ?tier ?sum ?product ?power ?minus ?not ?plain
    ?ended ?leaf ?excess ?call ?paren ?bar ?matrix ?vector ?set ?unexpected ?row ?noRow ?empty
    ?elements ?list ?arguments ?series ?stop ?step ?dimensions ?noDimensions
  case tier =>
    intro c t _ ihleft ihright
    unfold phrase
    refine .read ihleft fun x₁ x₂ c₁ h₁ hx => .ite (fun _ => ?_) fun _ => .done _ _ hx
    refine .read (ihright c₁ h₁) fun y₁ y₂ c₂ h₂ hy => ?_
    exact .built (hb.node _ (.cons hx (.cons hy .nil)) .nil) _ _
  case sum =>
    intro c ih
    unfold phrase
    exact .read ih fun _ _ _ _ hx => .built (hb.makeSum hx.1 hx.2) _ _
  case product =>
    intro c ih
    unfold phrase
    exact .read ih fun _ _ _ _ hx => .built (hb.makeProduct hx.1 hx.2) _ _
  case power =>
    intro c ihbase ihexponent
    unfold phrase
    refine .read ihbase fun x₁ x₂ c₁ h₁ hx => .ite (fun _ => ?_) fun _ => .done _ _ hx
    refine .read (ihexponent c₁ h₁) fun y₁ y₂ c₂ h₂ hy => ?_
    exact .built (hb.node "^" (.cons hx (.cons hy .nil)) .nil) _ _
  case minus =>
    intro c hminus _ ih
    unfold phrase
    simp only [dif_pos hminus]
    exact .read ih fun _ _ _ _ hx => .built (hb.node ".-" (.cons hx .nil) .nil) _ _
  case not =>
    intro c hminus hnot _ ih
    unfold phrase
    simp only [dif_neg hminus, dif_pos hnot]
    exact .read ih fun _ _ _ _ hx => .built (hb.node "!" (.cons hx .nil) .nil) _ _
  case plain =>
    intro c hminus hnot ih ihfirst ihsecond
    unfold phrase
    simp only [dif_neg hminus, dif_neg hnot]
    refine .read ih fun x₁ x₂ c₁ h₁ hx => .ite (fun _ => ?_) fun _ => .done _ _ hx
    refine .read (ihfirst c₁ h₁) fun i₁ i₂ c₂ h₂ hi => .ite (fun _ => ?_) fun _ => ?_
    · refine .read (ihsecond c₁ h₁ c₂ h₂) fun j₁ j₂ c₃ h₃ hj => ?_
      refine .bind (hb.node "index2" (.cons hx (.cons hi (.cons hj .nil))) .nil) fun _ _ h => ?_
      exact .bind (.expect _ _ _) fun _ _ _ => .done _ _ h
    · refine .bind (hb.node "index1" (.cons hx (.cons hi .nil)) .nil) fun _ _ h => ?_
      exact .bind (.expect _ _ _) fun _ _ _ => .done _ _ h
  case ended =>
    intro c hend
    unfold phrase
    simp only [dif_pos hend]
    exact .throw _
  case leaf =>
    intro c hend _ l hopening
    unfold phrase
    simp only [dif_neg hend, hopening]
    exact .built (hb.leaf l) _ _
  case excess =>
    intro c hend _ digits hopening
    unfold phrase
    simp only [dif_neg hend, hopening]
    exact .throw _
  case call =>
    intro c hend _ hopening ih
    unfold phrase
    simpa only [dif_neg hend, hopening] using ih
  case paren =>
    intro c hend _ hopening ih
    unfold phrase
    simp only [dif_neg hend, hopening]
    exact .read ih fun _ _ _ _ hx => .bind (.expect _ _ _) fun _ _ _ => .done _ _ hx
  case bar =>
    intro c hend _ hopening ih
    unfold phrase
    simp only [dif_neg hend, hopening]
    refine .read ih fun _ _ _ _ hx => .bind (.expect _ _ _) fun _ _ _ => ?_
    exact .built (hb.node "abs" (.cons hx .nil) .nil) _ _
  case matrix =>
    intro c hend _ hopening hrow ih
    unfold phrase
    simp only [dif_neg hend, hopening, if_pos hrow]
    refine .read ih fun _ _ _ _ hx => .bind (.expect _ _ _) fun _ _ _ => ?_
    exact .built (hb.node "matrix" (.cons hx.1 hx.2.values) .nil) _ _
  case vector =>
    intro c hend _ hopening hrow ih
    unfold phrase
    simp only [dif_neg hend, hopening, if_neg hrow]
    exact .read ih fun _ _ _ _ hx => .done _ _ hx
  case set =>
    intro c hend _ hopening ih
    unfold phrase
    simp only [dif_neg hend, hopening]
    refine .read ih fun _ _ _ _ hx => .bind (.expect _ _ _) fun _ _ _ => ?_
    exact .built (hb.node "set" (.cons hx.1 hx.2.values) .nil) _ _
  case unexpected =>
    intro c hend _ hopening
    unfold phrase
    simp only [dif_neg hend, hopening]
    exact .throw _
  case row =>
    intro c hopen _ ih
    unfold phrase
    simp only [dif_pos hopen]
    exact .read ih fun _ _ _ _ hx => .done _ _ hx
  case noRow =>
    intro c hopen
    unfold phrase
    simp only [dif_neg hopen]
    exact .throw _
  case empty =>
    intro c hclose
    unfold phrase
    simp only [dif_pos hclose]
    exact .built (hb.node "vec" .nil .nil) _ _
  case elements =>
    intro c hclose ih
    unfold phrase
    simp only [dif_neg hclose]
    refine .read ih fun _ _ _ _ hx => .bind (.expect _ _ _) fun _ _ _ => ?_
    exact .built (hb.node "vec" (.cons hx.1 hx.2.values) .nil) _ _
  case list =>
    intro c hend _ ihdims ihargs ihoperand
    unfold call
    refine .read ihdims fun dims₁ dims₂ c₁ h₁ hdims => .ite (fun _ => ?_) fun _ => ?_
    · refine .ite (fun _ => .read (Q := List.Forall₂ R) (.done _ _ .nil) ?_) fun _ =>
        .read (ihargs c₁ h₁) ?_
      · exact fun _ _ c₂ _ hargs => agree_close ctx hb _ hargs hdims c₂ _
      · exact fun _ _ c₂ _ hargs => agree_close ctx hb _ hargs hdims c₂ _
    · have hempty : dims₁.isEmpty = dims₂.isEmpty := by cases hdims <;> rfl
      rw [hempty]
      refine .ite (fun _ => ?_) fun _ => .throw _
      exact .read (ihoperand c₁ h₁) fun _ _ _ _ hx => .built (hb.node _ (.cons hx .nil) .nil) _ _
  case arguments =>
    intro c ih
    unfold arguments
    exact .read ih fun _ _ _ _ hx => .done _ _ (.cons hx.1 hx.2.values)
  case series =>
    intro k c _ ihfirst ihmore
    unfold series
    refine .read ihfirst fun x₁ x₂ c₁ h₁ hx => ?_
    exact .read (ihmore c₁ h₁) fun _ _ _ _ hl => .done _ _ ⟨hx, hl⟩
  case stop =>
    intro k c hjoint
    unfold more
    simp only [hjoint]
    exact .done _ _ .nil
  case step =>
    intro k c j hjoint _ _ _ ihfirst ihmore
    unfold more
    simp only [hjoint]
    refine .read ihfirst fun x₁ x₂ c₁ h₁ hx => ?_
    exact .read (ihmore c₁ h₁) fun _ _ _ _ hl => .done _ _ (.cons ⟨rfl, hx⟩ hl)
  case dimensions =>
    intro c hopen _ ih
    unfold dimensions
    simp only [if_pos hopen]
    refine .read ih fun _ _ _ _ hx => .bind (.expect _ _ _) fun _ _ _ => ?_
    exact .done _ _ (.cons hx.1 hx.2.values)
  case noDimensions =>
    intro c hopen
    unfold dimensions
    simp only [if_neg hopen]
    exact .done _ _ .nil

/-- A whole token stream is read alike by two builders that correspond. -/
theorem agree_read (ctx : Context) (hb : b₁.Corresponds b₂ S R) (tokens : List Token) :
    Agree S R (read ctx b₁ tokens) (read ctx b₂ tokens) := by
  unfold read
  refine .read ((agree ctx hb).1 .term (Cursor.start tokens)) fun _ _ _ _ hx => ?_
  exact .ite (fun _ => .pure hx) fun _ => .throw _

end Grammar

namespace Term

variable {τ : Type} (leaf : Leaf → τ) (node : String → List τ → List τ → τ)

mutual

/-- What a pure builder makes of a term, from the leaves upwards. -/
def fold : Term → τ
  | .leaf l => leaf l
  | .node op args dims => node op (foldList args) (foldList dims)

def foldList : List Term → List τ
  | [] => []
  | t :: ts => fold t :: foldList ts

end

theorem foldList_eq_of_forall₂ {ts : List Term} {xs : List τ}
    (h : List.Forall₂ (fun t x => fold leaf node t = x) ts xs) : foldList leaf node ts = xs := by
  induction h with
  | nil => rfl
  | cons hx _ ih => rw [foldList, hx, ih]

end Term

/-- A pure builder makes the fold of each term that is built beside it. -/
theorem Builder.terms_corresponds {τ : Type} (leaf : Leaf → τ)
    (node : String → List τ → List τ → τ) :
    Builder.terms.Corresponds (.ofPure leaf node) (fun _ _ => True)
      (fun t x => t.fold leaf node = x) where
  leaf l := fun _ _ _ => .ok rfl trivial
  node op args₁ args₂ dims₁ dims₂ hargs hdims := by
    have hnode : (Term.node op args₁ dims₁).fold leaf node = node op args₂ dims₂ := by
      rw [Term.fold, Term.foldList_eq_of_forall₂ leaf node hargs,
        Term.foldList_eq_of_forall₂ leaf node hdims]
    exact fun _ _ _ => .ok hnode trivial

namespace Expression

/-- The outcome with another value in place of the one that was read. -/
def Parsed.map {ρ σ α β : Type} (f : α → β) (parsed : Parsed ρ σ α) : Parsed ρ σ β :=
  ⟨parsed.prepared, parsed.random,
    match parsed.result with
    | .ok x s => .ok (f x) s
    | .error e s => .error e s⟩

/-- Parsing with a pure builder succeeds and fails exactly as parsing into a term
does, and it yields the fold of that term. -/
theorem parse_ofPure {ρ τ : Type} (ctx : Context) (leaf : Leaf → τ)
    (node : String → List τ → List τ → τ) (splits : Bool) (chooser : Chooser ρ)
    (source : String) (random : ρ) :
    parse ctx (.ofPure leaf node) splits chooser source random () =
      (parse ctx .terms splits chooser source random ()).map (Term.fold leaf node) := by
  unfold parse Parsed.map
  dsimp only
  generalize (prepare ctx splits chooser source random).1.tokens = tokens
  have h := Grammar.agree_read ctx (Builder.terms_corresponds leaf node) tokens () () trivial
  generalize Grammar.read ctx .terms tokens () = r₁ at h ⊢
  generalize Grammar.read ctx (.ofPure leaf node) tokens () = r₂ at h ⊢
  cases h with
  | ok hx _ =>
    subst hx
    rfl
  | error _ => rfl

end Expression

end TermReader
