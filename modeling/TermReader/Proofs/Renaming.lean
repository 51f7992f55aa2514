import TermReader.Proofs.Tails
import TermReader.Proofs.Spelling

/-!
One name for all calls without arguments. A name may stand for a function of no arguments
and for other functions too, and then a list of arguments after it must be empty. Where a
name is called with the empty list, a fresh name that is good for nothing else may be
written instead. In the context that knows the fresh name for this use alone no name has
two uses, and what is read there from the renamed input is read from the input itself.
-/

namespace TermReader

namespace Context

variable {ctx : Context} {g t : Token}

/-- The context in which one name stands for all functions of no arguments. -/
def apart (ctx : Context) (g : Token) : Context where
  name := ctx.name
  names
    | .nullary => [g]
    | table => ctx.names table

/-- A name that nothing is known by. -/
structure Fresh (ctx : Context) (g : Token) : Prop where
  isIdentifier : g.isIdentifier = true
  not_constant : g ∉ Token.constants
  unknown : ∀ table, g ∉ ctx.names table

theorem Fresh.not_mem_arities (hg : ctx.Fresh g) (n : Nat) : n ∉ ctx.arities g := by
  intro h
  obtain ⟨table, hname, -⟩ := mem_arities_iff.1 h
  exact hg.unknown table hname

theorem mem_arities_apart {n : Nat} :
    n ∈ (ctx.apart g).arities t ↔ n = 0 ∧ t = g ∨ n ≠ 0 ∧ n ∈ ctx.arities t := by
  rw [mem_arities_iff, mem_arities_iff]
  constructor
  · rintro ⟨table, hname, harity⟩
    cases table with
    | nullary => exact .inl ⟨(Option.some.inj harity).symm, List.mem_singleton.1 hname⟩
    | irrationals => cases harity
    | unary | binary | ternary | quaternary =>
      refine .inr ⟨?_, _, hname, harity⟩
      rintro rfl
      cases harity
  · rintro (⟨rfl, rfl⟩ | ⟨hn, table, hname, harity⟩)
    · exact ⟨.nullary, List.mem_singleton.2 rfl, rfl⟩
    · refine ⟨table, ?_, harity⟩
      cases table with
      | nullary => exact absurd (Option.some.inj harity).symm hn
      | unary | binary | ternary | quaternary | irrationals => exact hname

theorem WellNamed.apart (hctx : ctx.WellNamed) (hg : ctx.Fresh g) : (ctx.apart g).WellNamed := by
  intro table name hname
  cases table with
  | nullary => exact List.mem_singleton.1 hname ▸ hg.isIdentifier
  | unary => exact hctx .unary name hname
  | binary => exact hctx .binary name hname
  | ternary => exact hctx .ternary name hname
  | quaternary => exact hctx .quaternary name hname
  | irrationals => exact hctx .irrationals name hname

theorem nullaryApart_apart (hg : ctx.Fresh g) : (ctx.apart g).NullaryApart := by
  intro name hname table hnullary _
  obtain rfl := List.mem_singleton.1 hname
  cases table with
  | nullary => exact absurd rfl hnullary
  | unary | binary | ternary | quaternary | irrationals => exact hg.unknown _

theorem isIrrational_apart : (ctx.apart g).isIrrational t = ctx.isIrrational t := rfl

theorem isFunction_apart (hg : ctx.Fresh g) :
    (ctx.apart g).isFunction t = true ↔ t = g ∨ ∃ n ≠ 0, n ∈ ctx.arities t := by
  rw [isFunction_iff]
  constructor
  · rintro ⟨n, hn⟩
    rcases mem_arities_apart.1 hn with ⟨-, rfl⟩ | ⟨hne, hn⟩
    · exact .inl rfl
    · exact .inr ⟨n, hne, hn⟩
  · rintro (rfl | ⟨n, hne, hn⟩)
    · exact ⟨0, mem_arities_apart.2 (.inl ⟨rfl, rfl⟩)⟩
    · exact ⟨n, mem_arities_apart.2 (.inr ⟨hne, hn⟩)⟩

theorem opening_fresh (hg : ctx.Fresh g) : (ctx.apart g).opening g = .call := by
  have hirr : ctx.isIrrational g = false := by
    rw [Bool.eq_false_iff]
    exact fun h => hg.unknown .irrationals (by simpa [isIrrational] using h)
  rw [opening_of_isIdentifier hg.isIdentifier hg.not_constant, isIrrational_apart, hirr,
    (isFunction_apart hg).2 (.inl rfl)]
  rfl

/-- A function that takes arguments is one still. -/
theorem opening_apart_call (hg : ctx.Fresh g) (h : ctx.opening t = .call) {n : Nat} (hne : n ≠ 0)
    (hn : n ∈ ctx.arities t) : (ctx.apart g).opening t = .call := by
  have hfun : (ctx.apart g).isFunction t = ctx.isFunction t :=
    ((isFunction_apart hg).2 (.inr ⟨n, hne, hn⟩)).trans (isFunction_of_opening h).symm
  rw [opening_congr isIrrational_apart hfun, h]

/-- What opens no call stays what it is. -/
theorem opening_apart (hctx : ctx.WellNamed) (hg : ctx.Fresh g) (h : ctx.opening t ≠ .call)
    (ht : t ≠ g) : (ctx.apart g).opening t = ctx.opening t := by
  by_cases hfun : ctx.isFunction t = true
  · -- the name of a function that opens no call is a constant in the first place
    have hid := hctx.isIdentifier_of_isFunction hfun
    by_cases hconst : t ∈ Token.constants
    · simp only [Token.constants, List.mem_cons, List.not_mem_nil, or_false] at hconst
      rcases hconst with rfl | rfl | rfl | rfl <;> rfl
    rw [opening_of_isIdentifier hid hconst] at h ⊢
    rw [opening_of_isIdentifier hid hconst, isIrrational_apart]
    by_cases hirr : ctx.isIrrational t = true
    · rw [if_pos hirr, if_pos hirr]
    · rw [if_neg hirr, if_pos hfun] at h
      exact absurd rfl h
  · have hnone : ¬ (ctx.apart g).isFunction t = true := by
      rw [isFunction_apart hg]
      rintro (rfl | ⟨n, -, hn⟩)
      · exact ht rfl
      · exact hfun (isFunction_iff.2 ⟨n, hn⟩)
    refine opening_congr isIrrational_apart ?_
    rw [Bool.eq_false_iff.2 hnone, Bool.eq_false_iff.2 hfun]

end Context

/-- `Renamed ctx g ts us`: the tokens `ts` are `us` with `g` for some names that are called
without arguments. A name that could be called so and is kept is followed by no list. -/
inductive Renamed (ctx : Context) (g : Token) : List Token → List Token → Prop
  | nil : Renamed ctx g [] []
  | kept {t ts us} (hopening : (ctx.apart g).opening t = ctx.opening t)
      (hlist : ctx.opening t = .call → 0 ∈ ctx.arities t → lead us ≠ "(" ∧ lead us ≠ "<")
      (h : Renamed ctx g ts us) : Renamed ctx g (t :: ts) (t :: us)
  | called {name ts us} (hname : ctx.opening name = .call) (hzero : 0 ∈ ctx.arities name)
      (h : Renamed ctx g ts us) : Renamed ctx g (g :: ts) (name :: us)

theorem Series.joint?_of_isIdentifier {t : Token} (ht : t.isIdentifier = true) (k : Series) :
    k.joint? t = if k = .factors then some .implied else none := by
  cases hjoint : k.joint? t with
  | none =>
    rw [if_neg]
    rintro rfl
    rw [Series.joint?_of_juxtaposes (.inl ht)] at hjoint
    cases hjoint
  | some j =>
    rcases Series.of_joint? hjoint with ⟨-, hop⟩ | ⟨rfl, rfl, -⟩
    · rw [(Series.symbolic t hop).1] at ht
      cases ht
    · rfl

/-- The values of an item have as many parts. -/
def Item.SameLength : (i : Item) → i.Value → i.Value → Prop
  | more _, xs, ys => xs.length = ys.length
  | one _, _, _ => True
  | dimensions, _, _ => True

namespace Renamed

variable {ctx : Context} {g s t : Token} {ts us : List Token}

/-- A list starts as before, or with the fresh name instead of a name. -/
theorem lead_cases (hctx : ctx.WellNamed) (h : Renamed ctx g ts us) :
    lead ts = lead us ∨ lead ts = g ∧ (lead us).isIdentifier = true := by
  cases h with
  | nil => exact .inl rfl
  | kept => exact .inl rfl
  | called hname =>
    exact .inr ⟨rfl, hctx.isIdentifier_of_isFunction (Context.isFunction_of_opening hname)⟩

theorem lead_eq_iff (hctx : ctx.WellNamed) (hg : ctx.Fresh g) (h : Renamed ctx g ts us)
    (hs : s.isIdentifier = false) : lead ts = s ↔ lead us = s := by
  rcases h.lead_cases hctx with heq | ⟨hfresh, hname⟩
  · rw [heq]
  · constructor
    · rintro rfl
      rw [hfresh, hg.isIdentifier] at hs
      cases hs
    · rintro rfl
      rw [hname] at hs
      cases hs

theorem joint?_eq (hctx : ctx.WellNamed) (hg : ctx.Fresh g) (h : Renamed ctx g ts us)
    (k : Series) : k.joint? (lead us) = k.joint? (lead ts) := by
  rcases h.lead_cases hctx with heq | ⟨hfresh, hname⟩
  · rw [heq]
  · rw [hfresh, Series.joint?_of_isIdentifier hname, Series.joint?_of_isIdentifier hg.isIdentifier]

theorem tail (h : Renamed ctx g ts us) : Renamed ctx g ts.tail us.tail := by
  cases h with
  | nil => exact .nil
  | kept _ _ h => exact h
  | called _ _ h => exact h

theorem past (h : Renamed ctx g ts us) (j : Joint) : Renamed ctx g (j.past ts) (j.past us) := by
  cases j with
  | written => exact h.tail
  | implied => exact h

/-- A symbol stands in both lists. -/
theorem symbol (hg : ctx.Fresh g) (h : Renamed ctx g (s :: ts) us) (hs : s.isIdentifier = false) :
    ∃ us', us = s :: us' ∧ Renamed ctx g ts us' := by
  cases h with
  | kept _ _ h => exact ⟨_, rfl, h⟩
  | called =>
    rw [hg.isIdentifier] at hs
    cases hs

/-- A token that opens no call is kept. -/
theorem opens (hg : ctx.Fresh g) (h : Renamed ctx g (t :: ts) us)
    (ht : (ctx.apart g).opening t ≠ .call) :
    ∃ us', us = t :: us' ∧ ctx.opening t = (ctx.apart g).opening t ∧ Renamed ctx g ts us' := by
  cases h with
  | kept hopening _ h => exact ⟨_, rfl, hopening.symm, h⟩
  | called => exact absurd (Context.opening_fresh hg) ht

/-- A function with arguments is kept. -/
theorem calls (hg : ctx.Fresh g) (h : Renamed ctx g (t :: ts) us)
    (ht : (ctx.apart g).opening t = .call) {n : Nat} (hne : n ≠ 0)
    (hn : n ∈ (ctx.apart g).arities t) :
    ∃ us', us = t :: us' ∧ ctx.opening t = .call ∧ n ∈ ctx.arities t ∧
      (0 ∈ ctx.arities t → lead us' ≠ "(" ∧ lead us' ≠ "<") ∧ Renamed ctx g ts us' := by
  obtain ⟨hzero, -⟩ | ⟨-, hn⟩ := Context.mem_arities_apart.1 hn
  · exact absurd hzero hne
  cases h with
  | kept hopening hlist h =>
    rw [hopening] at ht
    exact ⟨_, rfl, ht, hn, hlist ht, h⟩
  | called => exact absurd hn (hg.not_mem_arities n)

/-- A function without arguments has the fresh name. -/
theorem callsNone (hg : ctx.Fresh g) (h : Renamed ctx g (t :: ts) us)
    (ht : (ctx.apart g).opening t = .call) (hzero : 0 ∈ (ctx.apart g).arities t) :
    ∃ name us', us = name :: us' ∧ ctx.opening name = .call ∧ 0 ∈ ctx.arities name ∧
      Renamed ctx g ts us' := by
  obtain ⟨-, rfl⟩ | ⟨hne, -⟩ := Context.mem_arities_apart.1 hzero
  · cases h with
    | kept hopening =>
      rw [hopening] at ht
      obtain ⟨n, hn⟩ := Context.isFunction_iff.1 (Context.isFunction_of_opening ht)
      exact absurd hn (hg.not_mem_arities n)
    | called hname hzero h => exact ⟨_, _, rfl, hname, hzero, h⟩
  · exact absurd rfl hne

/-- What is read from the renamed input is read from the input, with the names for the
fresh one. The induction is on the reading; the two readings have the same rules. -/
theorem reads (hctx : ctx.WellNamed) (hg : ctx.Fresh g) {i : Item} {rest : List Token}
    {x : i.Value} (h : Reads (ctx.apart g) i ts x rest) (hts : Renamed ctx g ts us) :
    ∃ y rest', Reads ctx i us y rest' ∧ i.SameLength x y ∧ Renamed ctx g rest rest' := by
  induction h generalizing us with
  | single _ hstop ih =>
    obtain ⟨y, rest', hy, -, hrest⟩ := ih hts
    refine ⟨y, rest', .single hy fun hop => hstop ?_, trivial, hrest⟩
    rwa [(hrest.lead_eq_iff hctx hg (Tier.symbolic _ hop).1).2 rfl]
  | joined _ hop _ ihx ihy =>
    obtain ⟨x', us₁, hx, -, hbehind⟩ := ihx hts
    obtain ⟨us₁, rfl, h₁⟩ := hbehind.symbol hg (Tier.symbolic _ hop).1
    obtain ⟨y', rest', hy, -, hrest⟩ := ihy h₁
    exact ⟨_, rest', .joined hx hop hy, trivial, hrest⟩
  | sum _ _ ihx ihlater =>
    obtain ⟨x', us₁, hx, -, h₁⟩ := ihx hts
    obtain ⟨later', rest', hlater, -, hrest⟩ := ihlater h₁
    exact ⟨_, rest', .sum hx hlater, trivial, hrest⟩
  | product _ _ ihx ihlater =>
    obtain ⟨x', us₁, hx, -, h₁⟩ := ihx hts
    obtain ⟨later', rest', hlater, -, hrest⟩ := ihlater h₁
    exact ⟨_, rest', .product hx hlater, trivial, hrest⟩
  | base _ hstop ih =>
    obtain ⟨y, rest', hy, -, hrest⟩ := ih hts
    rw [ne_eq, hrest.lead_eq_iff hctx hg (by decide)] at hstop
    exact ⟨y, rest', .base hy hstop, trivial, hrest⟩
  | power _ _ ihx ihy =>
    obtain ⟨x', us₁, hx, -, hbehind⟩ := ihx hts
    obtain ⟨us₁, rfl, h₁⟩ := hbehind.symbol hg (by decide)
    obtain ⟨y', rest', hy, -, hrest⟩ := ihy h₁
    exact ⟨_, rest', .power hx hy, trivial, hrest⟩
  | minus _ ih =>
    obtain ⟨us₁, rfl, h₁⟩ := hts.symbol hg (by decide)
    obtain ⟨y, rest', hy, -, hrest⟩ := ih h₁
    exact ⟨_, rest', .minus hy, trivial, hrest⟩
  | not _ ih =>
    obtain ⟨us₁, rfl, h₁⟩ := hts.symbol hg (by decide)
    obtain ⟨y, rest', hy, -, hrest⟩ := ih h₁
    exact ⟨_, rest', .not hy, trivial, hrest⟩
  | plain hminus hnot _ hstop ih =>
    obtain ⟨y, rest', hy, -, hrest⟩ := ih hts
    rw [ne_eq, hts.lead_eq_iff hctx hg (by decide)] at hminus hnot
    rw [ne_eq, hrest.lead_eq_iff hctx hg (by decide)] at hstop
    exact ⟨y, rest', .plain hminus hnot hy hstop, trivial, hrest⟩
  | index1 hminus hnot _ _ ihx ihi =>
    obtain ⟨x', us₁, hx, -, hbehind⟩ := ihx hts
    obtain ⟨us₁, rfl, h₁⟩ := hbehind.symbol hg (by decide)
    obtain ⟨i', us₂, hi, -, h₂⟩ := ihi h₁
    obtain ⟨rest', rfl, hrest⟩ := h₂.symbol hg (by decide)
    rw [ne_eq, hts.lead_eq_iff hctx hg (by decide)] at hminus hnot
    exact ⟨_, rest', .index1 hminus hnot hx hi, trivial, hrest⟩
  | index2 hminus hnot _ _ _ ihx ihi ihj =>
    obtain ⟨x', us₁, hx, -, hbehind⟩ := ihx hts
    obtain ⟨us₁, rfl, h₁⟩ := hbehind.symbol hg (by decide)
    obtain ⟨i', us₂, hi, -, hbehind⟩ := ihi h₁
    obtain ⟨us₂, rfl, h₂⟩ := hbehind.symbol hg (by decide)
    obtain ⟨j', us₃, hj, -, h₃⟩ := ihj h₂
    obtain ⟨rest', rfl, hrest⟩ := h₃.symbol hg (by decide)
    rw [ne_eq, hts.lead_eq_iff hctx hg (by decide)] at hminus hnot
    exact ⟨_, rest', .index2 hminus hnot hx hi hj, trivial, hrest⟩
  | leaf ht =>
    obtain ⟨rest', rfl, hopening, hrest⟩ := hts.opens hg (by simp [ht])
    exact ⟨_, rest', .leaf (hopening.trans ht), trivial, hrest⟩
  | paren ht _ ih =>
    obtain ⟨us₁, rfl, hopening, h₁⟩ := hts.opens hg (by simp [ht])
    obtain ⟨y, us₂, hy, -, h₂⟩ := ih h₁
    obtain ⟨rest', rfl, hrest⟩ := h₂.symbol hg (by decide)
    exact ⟨_, rest', .paren (hopening.trans ht) hy, trivial, hrest⟩
  | bar ht _ ih =>
    obtain ⟨us₁, rfl, hopening, h₁⟩ := hts.opens hg (by simp [ht])
    obtain ⟨y, us₂, hy, -, h₂⟩ := ih h₁
    obtain ⟨rest', rfl, hrest⟩ := h₂.symbol hg (by decide)
    exact ⟨_, rest', .bar (hopening.trans ht) hy, trivial, hrest⟩
  | vector ht hrow _ ih =>
    obtain ⟨us₁, rfl, hopening, h₁⟩ := hts.opens hg (by simp [ht])
    obtain ⟨y, rest', hy, -, hrest⟩ := ih h₁
    rw [ne_eq, h₁.lead_eq_iff hctx hg (by decide)] at hrow
    exact ⟨_, rest', .vector (hopening.trans ht) hrow hy, trivial, hrest⟩
  | matrix ht _ _ ihx ihlater =>
    obtain ⟨us₁, rfl, hopening, h₁⟩ := hts.opens hg (by simp [ht])
    obtain ⟨x', us₂, hx, -, h₂⟩ := ihx h₁
    obtain ⟨later', us₃, hlater, -, h₃⟩ := ihlater h₂
    obtain ⟨rest', rfl, hrest⟩ := h₃.symbol hg (by decide)
    exact ⟨_, rest', .matrix (hopening.trans ht) hx hlater, trivial, hrest⟩
  | set ht _ _ ihx ihlater =>
    obtain ⟨us₁, rfl, hopening, h₁⟩ := hts.opens hg (by simp [ht])
    obtain ⟨x', us₂, hx, -, h₂⟩ := ihx h₁
    obtain ⟨later', us₃, hlater, -, h₃⟩ := ihlater h₂
    obtain ⟨rest', rfl, hrest⟩ := h₃.symbol hg (by decide)
    exact ⟨_, rest', .set (hopening.trans ht) hx hlater, trivial, hrest⟩
  | callNone ht _ hcount ih =>
    obtain ⟨name, us₁, rfl, hname, hzero, h₁⟩ := hts.callsNone hg ht hcount
    obtain ⟨dims', us₂, hdims, -, hbehind⟩ := ih h₁
    obtain ⟨us₂, rfl, h₂⟩ := hbehind.symbol hg (by decide)
    obtain ⟨rest', rfl, hrest⟩ := h₂.symbol hg (by decide)
    exact ⟨_, rest', .callNone hname hdims hzero, trivial, hrest⟩
  | @callSome t _ _ _ _ _ _ _ ht _ _ _ _ hcount ihdims ihx ihlater =>
    obtain ⟨us₁, rfl, hname, harity, hlist, h₁⟩ :=
      hts.calls hg ht (by simp [Term.operands]) hcount
    obtain ⟨dims', us₂, hdims, -, hbehind⟩ := ihdims h₁
    obtain ⟨us₂, rfl, h₂⟩ := hbehind.symbol hg (by decide)
    obtain ⟨x', us₃, hx, -, h₃⟩ := ihx h₂
    obtain ⟨later', us₄, hlater, hlength, h₄⟩ := ihlater h₃
    obtain ⟨rest', rfl, hrest⟩ := h₄.symbol hg (by decide)
    have hzero : 0 ∉ ctx.arities t := fun hzero => by
      obtain ⟨hparen, hangle⟩ := hlist hzero
      cases hdims with
      | noDimensions => exact hparen rfl
      | dimensions => exact hangle rfl
    simp only [Item.SameLength] at hlength
    refine ⟨_, rest', .callSome hname hdims hzero hx hlater ?_, trivial, hrest⟩
    simpa only [Term.operands, List.length_cons, List.length_map, hlength] using harity
  | apply ht hangle hparen hone _ ih =>
    obtain ⟨us₁, rfl, hname, harity, -, h₁⟩ := hts.calls hg ht one_ne_zero hone
    obtain ⟨y, rest', hy, -, hrest⟩ := ih h₁
    rw [ne_eq, h₁.lead_eq_iff hctx hg (by decide)] at hangle hparen
    exact ⟨_, rest', .apply hname hangle hparen harity hy, trivial, hrest⟩
  | row _ ih =>
    obtain ⟨us₁, rfl, h₁⟩ := hts.symbol hg (by decide)
    obtain ⟨y, rest', hy, -, hrest⟩ := ih h₁
    exact ⟨_, rest', .row hy, trivial, hrest⟩
  | empty =>
    obtain ⟨rest', rfl, hrest⟩ := hts.symbol hg (by decide)
    exact ⟨_, rest', .empty, trivial, hrest⟩
  | elements hclose _ _ ihx ihlater =>
    obtain ⟨x', us₁, hx, -, h₁⟩ := ihx hts
    obtain ⟨later', us₂, hlater, -, h₂⟩ := ihlater h₁
    obtain ⟨rest', rfl, hrest⟩ := h₂.symbol hg (by decide)
    rw [ne_eq, hts.lead_eq_iff hctx hg (by decide)] at hclose
    exact ⟨_, rest', .elements hclose hx hlater, trivial, hrest⟩
  | stop hjoint =>
    rw [← hts.joint?_eq hctx hg] at hjoint
    exact ⟨[], us, .stop hjoint, rfl, hts⟩
  | @step k j _ _ _ _ _ hjoint _ _ ihx ihlater =>
    obtain ⟨x', us₁, hx, -, h₁⟩ := ihx (hts.past j)
    obtain ⟨later', rest', hlater, hlength, hrest⟩ := ihlater h₁
    rw [← hts.joint?_eq hctx hg] at hjoint
    exact ⟨_, rest', .step hjoint hx hlater, congrArg Nat.succ hlength, hrest⟩
  | noDimensions hangle =>
    rw [ne_eq, hts.lead_eq_iff hctx hg (by decide)] at hangle
    exact ⟨[], us, .noDimensions hangle, trivial, hts⟩
  | dimensions _ _ ihx ihlater =>
    obtain ⟨us₁, rfl, h₁⟩ := hts.symbol hg (by decide)
    obtain ⟨x', us₂, hx, -, h₂⟩ := ihx h₁
    obtain ⟨later', us₃, hlater, -, h₃⟩ := ihlater h₂
    obtain ⟨rest', rfl, hrest⟩ := h₃.symbol hg (by decide)
    exact ⟨_, rest', .dimensions hx hlater, trivial, hrest⟩

end Renamed

end TermReader
