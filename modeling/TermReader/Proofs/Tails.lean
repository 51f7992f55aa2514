import TermReader.Proofs.Derivation
import Mathlib.Data.List.Infix

/-!
What may follow an operand is a tail, and every tail starts with a token of its own.
What a derivation leaves behind a phrase is a row of links, each of which goes on with
one tail. Whichever link a reader takes early, the links behind it still fit the same
surroundings.
-/

namespace TermReader

/-- The series that go on without a bracket around them. -/
inductive Chain
  | factors
  | summands
  deriving DecidableEq

def Chain.series : Chain → Series
  | factors => .factors
  | summands => .summands

/-- What may follow an operand: an index, an exponent, further operands of a chain,
or the right side of an operator. -/
inductive Tail
  | index
  | power
  | chain (k : Chain)
  | tier (t : Tier)
  deriving DecidableEq

namespace Tail

/-- The symbols that start a tail. -/
def symbols : Tail → List Token
  | index => ["["]
  | power => ["^"]
  | chain .factors => ["*", "/", "("]
  | chain .summands => ["+", "-"]
  | tier t => t.operators

/-- The tokens at which a reader goes on with a tail: its symbols, and for factors
every name. -/
def Starts (k : Tail) (t : Token) : Prop :=
  t ∈ k.symbols ∨ k = chain .factors ∧ t.isIdentifier = true

/-- Tails of lower rank are taken by tighter phrases. -/
def rank : Tail → Nat
  | index | power | chain .factors => Phrase.product.rank
  | chain .summands => Phrase.sum.rank
  | tier t => (Phrase.tier t).rank

/-- The tails that may follow a link of a tail: a chain goes on, all else does not. -/
def after : Tail → List Tail → List Tail
  | chain k, tails => chain k :: tails
  | index, tails | power, tails | tier _, tails => tails

theorem isIdentifier_of_mem_symbols {k : Tail} : ∀ t ∈ k.symbols, t.isIdentifier = false := by
  rcases k with _ | _ | (_ | _) | (_ | _ | _ | _) <;> decide

/-- A token starts one tail at most. -/
theorem starts_unique {k k' : Tail} {t : Token} (h : k.Starts t) (h' : k'.Starts t) :
    k = k' := by
  rcases h with ht | ⟨rfl, hid⟩
  · rcases h' with ht' | ⟨rfl, hid⟩
    · revert t
      rcases k with _ | _ | (_ | _) | (_ | _ | _ | _) <;>
        rcases k' with _ | _ | (_ | _) | (_ | _ | _ | _) <;> decide
    · rw [isIdentifier_of_mem_symbols t ht] at hid
      cases hid
  · rcases h' with ht' | ⟨rfl, _⟩
    · rw [isIdentifier_of_mem_symbols t ht'] at hid
      cases hid
    · rfl

theorem starts_chain_iff {k : Chain} {t : Token} :
    (chain k).Starts t ↔ k.series.joint? t ≠ none := by
  cases k with
  | factors =>
    simp only [Starts, symbols, Chain.series, Series.joint?, List.mem_cons, List.not_mem_nil]
    grind
  | summands =>
    simp only [Starts, symbols, Chain.series, Series.joint?, List.mem_cons, List.not_mem_nil]
    grind

/-- At closing brackets, separators and the end mark nothing starts. -/
theorem not_starts_of_mem {k : Tail} {t : Token}
    (ht : t ∈ [")", "]", "\x7d", ",", "|", Token.endMark]) : ¬ k.Starts t := by
  rintro (h | ⟨-, h⟩)
  · revert t
    rcases k with _ | _ | (_ | _) | (_ | _ | _ | _) <;> decide
  · revert t
    decide

end Tail

theorem Series.joint?_of_mem {k : Series} {t : Token} (h : t ∈ k.operators) :
    k.joint? t = some (.written t) := by
  revert t
  cases k <;> decide

theorem Series.joint?_eq_none {k : Series} {t : Token} (hk : k.operators = [","])
    (ht : t ≠ ",") : k.joint? t = none := by
  cases k with
  | summands | factors => exact absurd hk (by decide)
  | terms | dimensions | rows => exact if_neg ht

theorem Series.joint?_of_juxtaposes {t : Token} (h : t.Juxtaposes) :
    Series.factors.joint? t = some .implied := by
  have hslash : ¬ (t = "*" ∨ t = "/") := by
    unfold Token.Juxtaposes at h
    rintro (rfl | rfl) <;> exact absurd h (by decide)
  exact (if_neg hslash).trans (if_pos h)

/-- One link: the tokens by which a tail goes on once. -/
inductive Link (ctx : Context) : Tail → List Token → Prop
  | index1 {u i} (hi : Derives ctx (.one .term) u i) : Link ctx .index ("[" :: (u ++ ["]"]))
  | index2 {u i v j} (hi : Derives ctx (.one .term) u i) (hj : Derives ctx (.one .term) v j) :
      Link ctx .index ("[" :: (u ++ "," :: (v ++ ["]"])))
  | power {u x} (hx : Derives ctx (.one .unary) u x) : Link ctx .power ("^" :: u)
  | step {k op u x} (hop : op ∈ k.series.operators)
      (hx : Derives ctx (.one k.series.operand) u x) : Link ctx (.chain k) (op :: u)
  | juxtaposed {u x} (hstart : (lead u).Juxtaposes) (hx : Derives ctx (.one .power) u x) :
      Link ctx (.chain .factors) u
  | tier {t op u x} (hop : op ∈ t.operators) (hx : Derives ctx (.one t.operand) u x) :
      Link ctx (.tier t) (op :: u)

/-- The tokens are a row of links, for tails in the order given. -/
inductive Follows (ctx : Context) : List Tail → List Token → Prop
  | nil : Follows ctx [] []
  | skip {k tails v} (h : Follows ctx tails v) : Follows ctx (k :: tails) v
  | take {k tails u v} (hu : Link ctx k u) (h : Follows ctx (k.after tails) v) :
      Follows ctx (k :: tails) (u ++ v)

section Links

variable {ctx : Context} {k : Tail} {tails tails' : List Tail} {u v c : List Token}

theorem Link.ne_nil (h : Link ctx k u) : u ≠ [] := by
  cases h with
  | juxtaposed _ hx => exact hx.ne_nil rfl
  | _ => exact List.cons_ne_nil _ _

theorem Link.starts (h : Link ctx k u) : k.Starts (lead u) := by
  cases h with
  | index1 => exact .inl (List.mem_singleton.2 rfl)
  | index2 => exact .inl (List.mem_singleton.2 rfl)
  | power => exact .inl (List.mem_singleton.2 rfl)
  | @step k op u x hop =>
    cases k with
    | factors => exact .inl (List.mem_append_left ["("] hop)
    | summands => exact .inl hop
  | juxtaposed hstart =>
    rcases hstart with hid | hparen
    · exact .inr ⟨rfl, hid⟩
    · exact .inl (by rw [hparen]; decide)
  | tier hop => exact .inl hop

/-- A link of a chain is a joint and the operand past it. -/
theorem Link.exists_operand {k : Chain} (h : Link ctx (.chain k) u) (rest : List Token) :
    ∃ j v x, k.series.joint? (lead (u ++ rest)) = some j ∧ j.past (u ++ rest) = v ++ rest ∧
      v.length ≤ u.length ∧ Derives ctx (.one k.series.operand) v x := by
  cases h with
  | @step k op v x hop hx =>
    exact ⟨.written op, v, x, Series.joint?_of_mem hop, rfl, Nat.le_succ _, hx⟩
  | @juxtaposed u x hstart hx =>
    rw [← lead_append (hx.ne_nil rfl) rest] at hstart
    exact ⟨.implied, u, x, Series.joint?_of_juxtaposes hstart, rfl, le_rfl, hx⟩

theorem Follows.of_suffix (h : Follows ctx tails v) (hsuffix : tails <:+ tails') :
    Follows ctx tails' v := by
  obtain ⟨before, rfl⟩ := hsuffix
  induction before with
  | nil => exact h
  | cons k before ih => exact .skip ih

theorem Follows.eq_nil (h : Follows ctx [] v) : v = [] := by
  cases h
  rfl

/-- The links that a tail starts may stand anywhere in the row; the tails in front
of them have been skipped. -/
theorem Follows.exists_link (h : Follows ctx tails v) (hstarts : k.Starts (lead v)) :
    ∃ u w tails', v = u ++ w ∧ Link ctx k u ∧ Follows ctx (k.after tails') w ∧
      k :: tails' <:+ tails := by
  induction h with
  | nil => exact absurd hstarts (Tail.not_starts_of_mem (t := Token.endMark) (by decide))
  | skip _ ih =>
    obtain ⟨u, w, tails', hv, hu, hw, hsuffix⟩ := ih hstarts
    exact ⟨u, w, tails', hv, hu, hw, hsuffix.trans (List.suffix_cons _ _)⟩
  | @take k' tails u w hu hw _ =>
    rw [lead_append hu.ne_nil] at hstarts
    obtain rfl := Tail.starts_unique hstarts hu.starts
    exact ⟨u, w, tails, rfl, hu, hw, List.suffix_refl _⟩

theorem Tail.after_suffix (h : k :: tails' <:+ k :: tails) :
    k.after tails' <:+ k.after tails := by
  cases k with
  | chain => exact h
  | index | power | tier =>
    rcases List.suffix_cons_iff.1 h with heq | hsuffix
    · obtain ⟨-, rfl⟩ := List.cons.inj heq
      exact List.suffix_refl _
    · exact (List.suffix_cons _ _).trans hsuffix

/-- Before a row of links and a token that starts no tail `k`, a reader that may go
on with `k` either stops, and the other tails take the row, or it takes a link. -/
theorem Follows.next (h : Follows ctx (k :: tails) v) (hc : ¬ k.Starts (lead c)) :
    (¬ k.Starts (lead (v ++ c)) ∧ Follows ctx tails v) ∨
      ∃ u w tails', v = u ++ w ∧ Link ctx k u ∧ Follows ctx tails' w ∧
        tails' <:+ k.after tails := by
  by_cases hstarts : k.Starts (lead v)
  · obtain ⟨u, w, tails', hv, hu, hw, hsuffix⟩ := h.exists_link hstarts
    exact .inr ⟨u, w, k.after tails', hv, hu, hw, Tail.after_suffix hsuffix⟩
  · left
    constructor
    · cases v with
      | nil => exact hc
      | cons t v => exact hstarts
    · cases h with
      | skip h => exact h
      | take hu _ =>
        rw [lead_append hu.ne_nil] at hstarts
        exact absurd hu.starts hstarts

/-- Further operands of a chain are links. -/
theorem Derives.follows {k : Chain} {w : List Token} {later : List (Token × Term)}
    (h : Derives ctx (.more k.series) w later) (hv : Follows ctx tails v) :
    Follows ctx (.chain k :: tails) (w ++ v) := by
  generalize hs : k.series = s at h
  induction later generalizing w with
  | nil =>
    cases h
    exact .skip hv
  | cons y later ih =>
    cases h with
    | step hop hx hlater =>
      subst hs
      rw [List.cons_append, List.append_assoc, ← List.cons_append]
      exact .take (.step hop hx) (ih hlater)
    | juxtaposed hstart hx hlater =>
      obtain rfl : k = .factors := by
        cases k with
        | factors => rfl
        | summands => cases hs
      rw [List.append_assoc]
      exact .take (.juxtaposed hstart hx) (ih hlater)

end Links

end TermReader
