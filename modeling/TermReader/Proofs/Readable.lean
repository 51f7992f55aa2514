import TermReader.Proofs.Rendering
import TermReader.Proofs.Completeness
import Mathlib.Data.List.Forall2

/-!
Tokens that are read as a given phrase wherever the phrase stops. A phrase stops at
a token that neither it nor a tighter phrase goes on with, and where it stops it
counts as any looser phrase that stops there too. What is in parentheses is read
whatever follows, so lists of parenthesized parts are read part by part.
-/

namespace TermReader

/-- The phrase that goes on with a tail by itself. -/
def Tail.phrase : Tail → Phrase
  | index => .unary
  | power => .power
  | chain .factors => .product
  | chain .summands => .sum
  | tier t => .tier t

/-- Neither the phrase nor a tighter one goes on at the token. -/
def Phrase.Stops (p : Phrase) (t : Token) : Prop :=
  ∀ k : Tail, k.phrase.rank ≤ p.rank → ¬ k.Starts t

namespace Phrase.Stops

variable {p q : Phrase} {t : Token}

theorem mono (h : q.Stops t) (hrank : p.rank ≤ q.rank) : p.Stops t :=
  fun k hk => h k (hk.trans hrank)

/-- What a looser phrase goes on with stops the tighter ones. -/
theorem of_starts {k : Tail} (h : k.Starts t) (hrank : p.rank < k.phrase.rank) : p.Stops t := by
  intro k' hk' h'
  rw [Tail.starts_unique h' h] at hk'
  omega

theorem of_mem (ht : t ∈ [")", "]", "\x7d", ",", "|", Token.endMark]) : p.Stops t :=
  fun _ _ => Tail.not_starts_of_mem ht

theorem joint?_eq_none {k : Chain} (h : (Tail.chain k).phrase.Stops t) :
    k.series.joint? t = none := by
  by_contra hne
  exact h (.chain k) le_rfl (Tail.starts_chain_iff.2 hne)

end Phrase.Stops

/-- A phrase that is read alone at the place of another, looser one. -/
inductive Phrase.Under : Phrase → Phrase → Prop
  | refl {p} : Under p p
  | tier {p t} (h : Under p t.operand) : Under p (.tier t)
  | sum {p} (h : Under p .product) : Under p .sum
  | product {p} (h : Under p .power) : Under p .product
  | power {p} (h : Under p .unary) : Under p .power
  | unary {p} (h : Under p .primary) : Under p .unary

namespace Phrase.Under

variable {p q : Phrase}

theorem trans {r : Phrase} (hpq : p.Under q) (hqr : q.Under r) : p.Under r := by
  induction hqr with
  | refl => exact hpq
  | tier _ ih => exact .tier ih
  | sum _ ih => exact .sum ih
  | product _ ih => exact .product ih
  | power _ ih => exact .power ih
  | unary _ ih => exact .unary ih

theorem rank_le (h : p.Under q) : p.rank ≤ q.rank := by
  induction h with
  | refl => exact Nat.le_refl _
  | @tier t _ ih => exact ih.trans t.rank_operand_lt.le
  | sum _ ih | product _ ih | power _ ih | unary _ ih => exact ih.trans (by decide)

theorem sum_term : Phrase.sum.Under .term := .tier (.tier (.tier (.tier .refl)))

theorem product_term : Phrase.product.Under .term := trans (.sum .refl) sum_term

theorem power_term : Phrase.power.Under .term := trans (.product .refl) product_term

theorem unary_term : Phrase.unary.Under .term := trans (.power .refl) power_term

theorem primary_term : Phrase.primary.Under .term := trans (.unary .refl) unary_term

theorem tier_term (t : Tier) : (Phrase.tier t).Under .term := by
  cases t with
  | disjunction => exact .refl
  | conjunction => exact .tier .refl
  | equality => exact .tier (.tier .refl)
  | relation => exact .tier (.tier (.tier .refl))

theorem primary_product : Phrase.primary.Under .product := .product (.power (.unary .refl))

theorem primary_operand (t : Tier) : Phrase.primary.Under t.operand := by
  have hsum : Phrase.primary.Under .sum := .sum primary_product
  cases t with
  | disjunction => exact .tier (.tier (.tier hsum))
  | conjunction => exact .tier (.tier hsum)
  | equality => exact .tier hsum
  | relation => exact hsum

end Phrase.Under

section Reading

variable {ctx : Context} {p q : Phrase} {ts rest : List Token} {x : Term}

/-- Where no looser phrase can go on, a phrase counts as the looser phrase. -/
theorem Reads.climb (hctx : ctx.WellNamed) (h : Reads ctx (.one p) ts x rest) (hpq : p.Under q)
    (hstop : q.Stops (lead rest)) : Reads ctx (.one q) ts x rest := by
  induction hpq with
  | refl => exact h
  | @tier t _ ih =>
    have hx := ih (hstop.mono t.rank_operand_lt.le)
    exact .single hx fun hop => hstop (.tier t) le_rfl (.inl hop)
  | sum _ ih =>
    have hx := ih (hstop.mono (by decide))
    exact .sum hx (.stop (Phrase.Stops.joint?_eq_none (k := .summands) hstop))
  | product _ ih =>
    have hx := ih (hstop.mono (by decide))
    exact .product hx (.stop (Phrase.Stops.joint?_eq_none (k := .factors) hstop))
  | power _ ih =>
    have hx := ih (hstop.mono (by decide))
    exact .base hx fun hop => hstop .power le_rfl (.inl (List.mem_singleton.2 hop))
  | unary _ ih =>
    have hx := ih (hstop.mono (by decide))
    obtain ⟨hminus, hnot⟩ := hctx.ne_sign hx.opens
    exact .plain hminus hnot hx fun hop => hstop .index le_rfl (.inl (List.mem_singleton.2 hop))

/-- The tokens are read as the phrase with the given value, wherever the phrase stops. -/
def Readable (ctx : Context) (p : Phrase) (u : List Token) (x : Term) : Prop :=
  ∀ rest, p.Stops (lead rest) → Reads ctx (.one p) (u ++ rest) x rest

namespace Readable

variable {u v : List Token} {y : Term}

theorem climb (hctx : ctx.WellNamed) (h : Readable ctx p u x) (hpq : p.Under q) :
    Readable ctx q u x :=
  fun rest hstop => (h rest (hstop.mono hpq.rank_le)).climb hctx hpq hstop

/-- In parentheses a term is read whatever follows. -/
theorem reads_parenthesized (hctx : ctx.WellNamed) (h : Readable ctx .term u x)
    (rest : List Token) : Reads ctx (.one .primary) (parenthesized u ++ rest) x rest := by
  have hx := h (")" :: rest) (.of_mem (t := ")") (by decide))
  unfold parenthesized
  rw [List.cons_append, List.append_assoc]
  exact .paren (hctx.opening_of_symbolic (by decide)) hx

theorem parenthesized (hctx : ctx.WellNamed) (h : Readable ctx .term u x)
    (hp : Phrase.primary.Under p) : Readable ctx p (parenthesized u) x :=
  climb hctx (fun rest _ => h.reads_parenthesized hctx rest) hp

theorem forall₂_parenthesized (hctx : ctx.WellNamed) {us : List (List Token)} {xs : List Term}
    (h : List.Forall₂ (Readable ctx .term) us xs) (hp : Phrase.primary.Under p) :
    List.Forall₂ (Readable ctx p) (us.map TermReader.parenthesized) xs :=
  List.forall₂_map_left_iff.2 (h.imp fun _ _ hx => hx.parenthesized hctx hp)

end Readable

/-- Parts with an operator before each of them are read as further operands. -/
theorem Reads.more_of_readable {k : Series} {op : Token} {us : List (List Token)}
    {xs : List Term} (hop : k.joint? op = some (.written op)) (hclose : k.operand.Stops op)
    (h : List.Forall₂ (Readable ctx k.operand) us xs) (hrest : k.operand.Stops (lead rest))
    (hstop : k.joint? (lead rest) = none) :
    Reads ctx (.more k) (us.flatMap (op :: ·) ++ rest) (xs.map (op, ·)) rest := by
  induction h with
  | nil => exact .stop hstop
  | @cons u x us xs hx hxs ih =>
    have hlead : k.operand.Stops (lead (us.flatMap (op :: ·) ++ rest)) := by
      cases hxs with
      | nil => exact hrest
      | cons => exact hclose
    have hread := hx _ hlead
    rw [List.flatMap_cons, List.append_assoc, List.cons_append]
    exact .step (j := .written op) hop hread ih

/-- Parts with an operator between them are read as a series. -/
theorem Reads.series_of_readable {k : Series} {op : Token} {u : List Token}
    {us : List (List Token)} {xs : List Term} (hop : k.joint? op = some (.written op))
    (hclose : k.operand.Stops op) (hx : Readable ctx k.operand u x)
    (h : List.Forall₂ (Readable ctx k.operand) us xs) (hrest : k.operand.Stops (lead rest))
    (hstop : k.joint? (lead rest) = none) :
    ∃ ts, Reads ctx (.one k.operand) (separated op (u :: us) ++ rest) x ts ∧
      Reads ctx (.more k) ts (xs.map (op, ·)) rest := by
  have hmore := Reads.more_of_readable hop hclose h hrest hstop
  have hlead : k.operand.Stops (lead (us.flatMap (op :: ·) ++ rest)) := by
    cases h with
    | nil => exact hrest
    | cons => exact hclose
  refine ⟨_, ?_, hmore⟩
  unfold separated
  rw [List.append_assoc]
  exact hx _ hlead

/-- A list in brackets is read up to the token that closes it. -/
theorem Reads.list_of_readable {k : Series} {u : List Token} {us : List (List Token)}
    {xs : List Term} {b : Token} (hk : k.operators = [","])
    (hx : Readable ctx k.operand u x) (h : List.Forall₂ (Readable ctx k.operand) us xs)
    (hb : k.operand.Stops b) (hcomma : b ≠ ",") (rest : List Token) :
    ∃ ts, Reads ctx (.one k.operand) (separated "," (u :: us) ++ b :: rest) x ts ∧
      Reads ctx (.more k) ts (xs.map (",", ·)) (b :: rest) :=
  Reads.series_of_readable (Series.joint?_of_mem (hk ▸ List.mem_singleton.2 rfl))
    (.of_mem (by decide)) hx h hb (Series.joint?_eq_none hk hcomma)

theorem Term.operands_map (x : Term) (xs : List Term) (op : Token) :
    Term.operands x (xs.map (op, ·)) = x :: xs := by
  simp [Term.operands, Function.comp_def]

/-- A row can be read besides as a row of a matrix. -/
def ReadsBack (ctx : Context) (u : List Token) (x : Term) : Prop :=
  Readable ctx .term u x ∧ (x.isVector = true → Readable ctx .row u x)

theorem ReadsBack.of_ne_vec {u : List Token} {op : String} {args dims : List Term}
    (h : Readable ctx .term u (.node op args dims)) (hop : op ≠ "vec") :
    ReadsBack ctx u (.node op args dims) :=
  ⟨h, fun hvec => absurd hvec (by simp [Term.isVector, hop])⟩

theorem ReadsBack.forall₂_row {us : List (List Token)} {xs : List Term}
    (h : List.Forall₂ (ReadsBack ctx) us xs) (hrows : ∀ x ∈ xs, x.isVector = true) :
    List.Forall₂ (Readable ctx .row) us xs := by
  induction h with
  | nil => exact .nil
  | cons hx _ ih =>
    obtain ⟨hvec, hrows⟩ := List.forall_mem_cons.1 hrows
    exact .cons (hx.2 hvec) (ih hrows)

end Reading

end TermReader
