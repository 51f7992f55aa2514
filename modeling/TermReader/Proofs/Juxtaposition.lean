import TermReader.Token.Split
import TermReader.Proofs.Execution
import TermReader.Proofs.Tails
import TermReader.Proofs.Spelling

/-!
A product without an operator is a product with one. Two inputs that differ in one
place alone, where a factor follows an operand at once in the one and behind a
multiplication sign in the other, are read step by step alike: up to that place they
are equal, there both go on with the same product, and behind it they are equal again.
-/

namespace TermReader

namespace Token

/-- The brackets that can end an operand. -/
def closers : List Token := [")", "]", "\x7d"]

/-- A token that can end an operand: a numeral, a truth value, a constant, a name that
is no function, or a closing bracket. -/
def EndsOperand (ctx : Context) (t : Token) : Prop :=
  (t.isInteger = true ∨ t.isReal = true ∨ t.isImaginary = true) ∨ t.isTruthValue = true ∨
    ctx.isConstant t = true ∨ (t.isIdentifier = true ∧ ctx.isFunction t = false) ∨ t ∈ closers

theorem not_isIdentifier_of_mem_closers : ∀ t ∈ closers, t.isIdentifier = false := by decide

namespace EndsOperand

variable {ctx : Context} {t : Token}

/-- The only symbols that end operands are the closing brackets. -/
theorem mem_closers (hctx : ctx.WellNamed) (h : t.EndsOperand ctx) (ht : t.Symbolic) :
    t ∈ closers := by
  obtain ⟨hid, himag, hint, hreal⟩ := ht
  have hname : t.isIdentifier ≠ true := Bool.eq_false_iff.1 hid
  rcases h with h | htruth | hconst | ⟨hvar, _⟩ | hclose
  · simp [himag, hint, hreal] at h
  · simp only [isTruthValue, Bool.or_eq_true, beq_iff_eq] at htruth
    rcases htruth with rfl | rfl <;> exact absurd (by decide) hname
  · simp only [Context.isConstant, Bool.or_eq_true, beq_iff_eq] at hconst
    rcases hconst with rfl | hirr
    · exact absurd (by decide) hname
    · exact absurd (hctx.isIdentifier_of_isIrrational hirr) hname
  · exact absurd hvar hname
  · exact hclose

/-- What ends an operand starts no call. -/
theorem opening_ne_call (hctx : ctx.WellNamed) (h : t.EndsOperand ctx) :
    ctx.opening t ≠ .call := by
  intro hcall
  have hfun := Context.isFunction_of_opening hcall
  have hid := hctx.isIdentifier_of_isFunction hfun
  by_cases hword : t ∈ Token.constants
  · revert hcall
    simp only [constants, List.mem_cons, List.not_mem_nil, or_false] at hword
    rcases hword with rfl | rfl | rfl | rfl <;> exact Context.Opening.noConfusion
  rw [Context.opening_of_isIdentifier hid hword] at hcall
  by_cases hirr : ctx.isIrrational t = true
  · rw [if_pos hirr] at hcall
    cases hcall
  simp only [constants, List.mem_cons, List.not_mem_nil, or_false, not_or] at hword
  obtain ⟨himag, hint, hreal⟩ := not_numeral_of_isIdentifier hid hword.2.2.2
  rcases h with h | htruth | hconst | ⟨_, hvar⟩ | hclose
  · simp [himag, hint, hreal] at h
  · simp [isTruthValue, hword] at htruth
  · simp [Context.isConstant, hword, hirr] at hconst
  · rw [hfun] at hvar
    cases hvar
  · rw [not_isIdentifier_of_mem_closers t hclose] at hid
    cases hid

end EndsOperand

end Token

/-- The two ways in which a product goes on with the factor that starts at `t`. -/
def Seam (t : Token) (post ts : List Token) : Prop := ts = t :: post ∨ ts = "*" :: t :: post

/-- Both inputs are at the place where they may differ, before the same factor. -/
def AtSeam (t : Token) (ts ts' : List Token) : Prop :=
  ∃ post, Seam t post ts ∧ Seam t post ts'

/-- Both inputs are the same up to an operand that ends in `s` and behind the factor
that starts at `t`; between the two each may have a multiplication sign. -/
inductive Beside (s t : Token) : List Token → List Token → Prop
  | same (ts) : Beside s t ts ts
  | seam {ts ts'} (h : AtSeam t ts ts') : Beside s t (s :: ts) (s :: ts')
  | cons (u) {ts ts'} (h : Beside s t ts ts') : Beside s t (u :: ts) (u :: ts')

/-- Two inputs of which a part has been read. -/
def Parted (s t : Token) (ts ts' : List Token) : Prop := Beside s t ts ts' ∨ AtSeam t ts ts'

section Inputs

variable {s t u : Token} {ts ts' : List Token}

theorem AtSeam.symm (h : AtSeam t ts ts') : AtSeam t ts' ts := by
  obtain ⟨post, h, h'⟩ := h
  exact ⟨post, h', h⟩

theorem AtSeam.lead_cases (h : AtSeam t ts ts') : lead ts = t ∨ lead ts = "*" := by
  obtain ⟨post, rfl | rfl, -⟩ := h
  · exact .inl rfl
  · exact .inr rfl

theorem Beside.symm (h : Beside s t ts ts') : Beside s t ts' ts := by
  induction h with
  | same ts => exact .same ts
  | seam h => exact .seam h.symm
  | cons u _ ih => exact .cons u ih

theorem Parted.symm (h : Parted s t ts ts') : Parted s t ts' ts := h.imp Beside.symm AtSeam.symm

theorem Beside.lead_eq (h : Beside s t ts ts') : lead ts = lead ts' := by
  cases h <;> rfl

/-- Past one token the inputs are beside each other still, or at the seam. -/
theorem Beside.exists_cons (h : Beside s t (u :: ts) ts') :
    ∃ ts'', ts' = u :: ts'' ∧ Parted s t ts ts'' ∧ (u ≠ s → Beside s t ts ts'') := by
  cases h with
  | same => exact ⟨ts, rfl, .inl (.same ts), fun _ => .same ts⟩
  | seam h => exact ⟨_, rfl, .inr h, fun hne => absurd rfl hne⟩
  | cons _ h => exact ⟨_, rfl, .inl h, fun _ => h⟩

/-- A seam in front of which two inputs are read alike: an operand ends at `s`, and a
factor starts at `t`. -/
structure Joins (ctx : Context) (s t : Token) : Prop where
  wellNamed : ctx.WellNamed
  endsOperand : s.EndsOperand ctx
  juxtaposes : t.Juxtaposes

namespace Joins

variable {ctx : Context}

/-- The token before the seam is no symbol other than a closing bracket. -/
theorem ne_of_symbolic (hst : Joins ctx s t) (hu : u.Symbolic ∧ u ∉ Token.closers) : u ≠ s := by
  rintro rfl
  exact hu.2 (hst.endsOperand.mem_closers hst.wellNamed hu.1)

/-- At a symbol that is no factor and no multiplication sign there is no seam. -/
theorem beside (hst : Joins ctx s t) (h : Parted s t ts ts')
    (hu : (lead ts).Symbolic ∧ lead ts ∉ ["*", "("]) : Beside s t ts ts' := by
  refine h.resolve_right fun h => ?_
  rcases h.lead_cases with ht | hsign
  · rcases hst.juxtaposes with hid | hparen
    · rw [← ht, hu.1.1] at hid
      cases hid
    · exact hu.2 (by simp [ht, hparen])
  · exact hu.2 (by simp [hsign])

/-- Such a symbol stands in front of both inputs or of neither. -/
theorem lead_eq (hst : Joins ctx s t) (h : Parted s t ts ts')
    (hu : (lead ts').Symbolic ∧ lead ts' ∉ ["*", "("]) : lead ts = lead ts' :=
  (hst.beside h.symm hu).lead_eq.symm

/-- Past a symbol that closes nothing the seam is still ahead. -/
theorem step (hst : Joins ctx s t) (h : Beside s t (u :: ts) ts')
    (hu : u.Symbolic ∧ u ∉ Token.closers) : ∃ ts'', ts' = u :: ts'' ∧ Beside s t ts ts'' := by
  obtain ⟨ts'', rfl, -, hbeside⟩ := h.exists_cons
  exact ⟨ts'', rfl, hbeside (hst.ne_of_symbolic hu)⟩

/-- Past the name of a call the seam is still ahead. -/
theorem name (hst : Joins ctx s t) (h : Beside s t (u :: ts) ts') (hu : ctx.opening u = .call) :
    ∃ ts'', ts' = u :: ts'' ∧ Beside s t ts ts'' := by
  obtain ⟨ts'', rfl, -, hbeside⟩ := h.exists_cons
  refine ⟨ts'', rfl, hbeside ?_⟩
  rintro rfl
  exact hst.endsOperand.opening_ne_call hst.wellNamed hu

/-- At a bracket that closes a phrase both inputs go on alike. -/
theorem close (hst : Joins ctx s t) (h : Parted s t (u :: ts) ts')
    (hu : u.Symbolic ∧ u ∉ ["*", "("]) : ∃ ts'', ts' = u :: ts'' ∧ Parted s t ts ts'' := by
  obtain ⟨ts'', rfl, hparted, -⟩ := (hst.beside h hu).exists_cons
  exact ⟨ts'', rfl, hparted⟩

/-- At an operator both inputs go on alike, and the seam is still ahead. -/
theorem operator (hst : Joins ctx s t) (h : Parted s t (u :: ts) ts')
    (hu : (u.Symbolic ∧ u ∉ ["*", "("]) ∧ u ∉ Token.closers) :
    ∃ ts'', ts' = u :: ts'' ∧ Beside s t ts ts'' :=
  hst.step (hst.beside h hu.1) ⟨hu.1.1, hu.2⟩

end Joins

end Inputs

theorem Tier.operator_mem {t : Tier} :
    ∀ op ∈ t.operators, (op.Symbolic ∧ op ∉ ["*", "("]) ∧ op ∉ Token.closers := by
  cases t <;> decide

theorem Series.not_mem_closers {k : Series} : ∀ op ∈ k.operators, op ∉ Token.closers := by
  cases k <;> decide

/-- How two inputs compare where an item starts: only a series may go on at the seam. -/
def Item.Before (s t : Token) : Item → List Token → List Token → Prop
  | more _ => Parted s t
  | one _ | dimensions => Beside s t

/-- How two inputs compare behind an item: all but the dimensions may end at the seam. -/
def Item.Behind (s t : Token) : Item → List Token → List Token → Prop
  | dimensions => Beside s t
  | one _ | more _ => Parted s t

/-- A factor that follows an operand starts at no operator of a series. -/
theorem Token.Juxtaposes.not_mem_operators {t : Token} (ht : t.Juxtaposes) (k : Series) :
    t ∉ k.operators := by
  intro hop
  rcases ht with hid | rfl
  · rw [(Series.symbolic t hop).1] at hid
    cases hid
  · revert hop
    cases k <;> decide

section Joints

variable {ctx : Context} {s t : Token} {k : Series} {j : Joint} {post ts ts' : List Token}

/-- At the seam a product goes on with the same factor, whether the sign is written. -/
theorem Seam.factors (ht : t.Juxtaposes) (h : Seam t post ts) :
    ∃ j, Series.factors.joint? (lead ts) = some j ∧ j.operator = "*" ∧ j.past ts = t :: post := by
  rcases h with rfl | rfl
  · exact ⟨.implied, Series.joint?_of_juxtaposes ht, rfl, rfl⟩
  · exact ⟨.written "*", rfl, rfl, rfl⟩

/-- At the seam no other series goes on. -/
theorem Seam.other (ht : t.Juxtaposes) (h : Seam t post ts) (hk : k ≠ .factors) :
    k.joint? (lead ts) = none := by
  cases hjoint : k.joint? (lead ts) with
  | none => rfl
  | some j =>
    rcases Series.of_joint? hjoint with ⟨-, hop⟩ | ⟨-, rfl, -⟩
    · rcases h with rfl | rfl
      · exact absurd hop (ht.not_mem_operators k)
      · cases k with
        | factors => exact absurd rfl hk
        | summands | terms | dimensions | rows => exact absurd hop (by rw [lead_cons]; decide)
    · exact absurd rfl hk

namespace Joins

/-- A series that ends in one input ends in the other. -/
theorem joint?_eq_none (hst : Joins ctx s t) (h : Parted s t ts ts')
    (hjoint : k.joint? (lead ts) = none) : k.joint? (lead ts') = none := by
  rcases h with h | ⟨post, h, h'⟩
  · rwa [← h.lead_eq]
  · refine h'.other hst.juxtaposes ?_
    rintro rfl
    obtain ⟨j, hfactors, -⟩ := h.factors hst.juxtaposes
    rw [hfactors] at hjoint
    cases hjoint

/-- A series that goes on in one input goes on in the other, by the same operator and
before the seam. -/
theorem joint?_eq_some (hst : Joins ctx s t) (h : Parted s t ts ts')
    (hjoint : k.joint? (lead ts) = some j) :
    ∃ j', k.joint? (lead ts') = some j' ∧ j'.operator = j.operator ∧
      Beside s t (j.past ts) (j'.past ts') := by
  rcases h with h | ⟨post, h, h'⟩
  · refine ⟨j, h.lead_eq ▸ hjoint, rfl, ?_⟩
    rcases Series.of_joint? hjoint with ⟨rfl, hop⟩ | ⟨rfl, -⟩
    · have hne : lead ts ≠ Token.endMark := by
        intro hend
        rw [hend, k.joint?_endMark] at hjoint
        cases hjoint
      rw [eq_cons_of_lead rfl hne] at h
      obtain ⟨ts'', rfl, hbeside⟩ :=
        hst.step h ⟨Series.symbolic _ hop, Series.not_mem_closers _ hop⟩
      exact hbeside
    · exact h
  · obtain rfl : k = .factors := by
      by_contra hk
      rw [h.other hst.juxtaposes hk] at hjoint
      cases hjoint
    obtain ⟨i, hi, hoperator, hpast⟩ := h.factors hst.juxtaposes
    obtain ⟨i', hi', hoperator', hpast'⟩ := h'.factors hst.juxtaposes
    obtain rfl := Option.some.inj (hi.symm.trans hjoint)
    refine ⟨i', hi', hoperator'.trans hoperator.symm, ?_⟩
    rw [hpast, hpast']
    exact .same _

end Joins

end Joints

namespace Joins

variable {ctx : Context} {s t : Token}

/-- Two inputs that differ at the seam alone are read alike. The induction is on the
reading of the one; every item starts and ends in the other where it does in the first. -/
theorem reads (hst : Joins ctx s t) {i : Item} {ts rest : List Token} {x : i.Value}
    (h : Reads ctx i ts x rest) {ts' : List Token} (hts : i.Before s t ts ts') :
    ∃ rest', Reads ctx i ts' x rest' ∧ i.Behind s t rest rest' := by
  induction h generalizing ts' with
  | single _ hstop ih =>
    obtain ⟨rest', hx, hrest⟩ := ih hts
    refine ⟨rest', .single hx fun hop => hstop ?_, hrest⟩
    rwa [hst.lead_eq hrest (Tier.operator_mem _ hop).1]
  | joined _ hop _ ihx ihy =>
    obtain ⟨ts₁, hx, hbehind⟩ := ihx hts
    obtain ⟨ts₁, rfl, h₁⟩ := hst.operator hbehind (Tier.operator_mem _ hop)
    obtain ⟨rest', hy, hrest⟩ := ihy h₁
    exact ⟨rest', .joined hx hop hy, hrest⟩
  | sum _ _ ihx ihlater =>
    obtain ⟨ts₁, hx, h₁⟩ := ihx hts
    obtain ⟨rest', hlater, hrest⟩ := ihlater h₁
    exact ⟨rest', .sum hx hlater, hrest⟩
  | product _ _ ihx ihlater =>
    obtain ⟨ts₁, hx, h₁⟩ := ihx hts
    obtain ⟨rest', hlater, hrest⟩ := ihlater h₁
    exact ⟨rest', .product hx hlater, hrest⟩
  | base _ hstop ih =>
    obtain ⟨rest', hx, hrest⟩ := ih hts
    refine ⟨rest', .base hx fun hop => hstop ?_, hrest⟩
    rw [hst.lead_eq hrest (hop ▸ by decide), hop]
  | power _ _ ihx ihy =>
    obtain ⟨ts₁, hx, hbehind⟩ := ihx hts
    obtain ⟨ts₁, rfl, h₁⟩ := hst.operator hbehind (by decide)
    obtain ⟨rest', hy, hrest⟩ := ihy h₁
    exact ⟨rest', .power hx hy, hrest⟩
  | minus _ ih =>
    obtain ⟨ts₁, rfl, h₁⟩ := hst.step hts (by decide)
    obtain ⟨rest', hx, hrest⟩ := ih h₁
    exact ⟨rest', .minus hx, hrest⟩
  | not _ ih =>
    obtain ⟨ts₁, rfl, h₁⟩ := hst.step hts (by decide)
    obtain ⟨rest', hx, hrest⟩ := ih h₁
    exact ⟨rest', .not hx, hrest⟩
  | plain hminus hnot _ hstop ih =>
    obtain ⟨rest', hx, hrest⟩ := ih hts
    rw [Beside.lead_eq hts] at hminus hnot
    refine ⟨rest', .plain hminus hnot hx fun hop => hstop ?_, hrest⟩
    rw [hst.lead_eq hrest (hop ▸ by decide), hop]
  | index1 hminus hnot _ _ ihx ihi =>
    obtain ⟨ts₁, hx, hbehind⟩ := ihx hts
    obtain ⟨ts₁, rfl, h₁⟩ := hst.operator hbehind (by decide)
    obtain ⟨ts₂, hi, h₂⟩ := ihi h₁
    obtain ⟨rest', rfl, hrest⟩ := hst.close h₂ (by decide)
    rw [Beside.lead_eq hts] at hminus hnot
    exact ⟨rest', .index1 hminus hnot hx hi, hrest⟩
  | index2 hminus hnot _ _ _ ihx ihi ihj =>
    obtain ⟨ts₁, hx, hbehind⟩ := ihx hts
    obtain ⟨ts₁, rfl, h₁⟩ := hst.operator hbehind (by decide)
    obtain ⟨ts₂, hi, hbehind⟩ := ihi h₁
    obtain ⟨ts₂, rfl, h₂⟩ := hst.operator hbehind (by decide)
    obtain ⟨ts₃, hj, h₃⟩ := ihj h₂
    obtain ⟨rest', rfl, hrest⟩ := hst.close h₃ (by decide)
    rw [Beside.lead_eq hts] at hminus hnot
    exact ⟨rest', .index2 hminus hnot hx hi hj, hrest⟩
  | leaf ht =>
    obtain ⟨rest', rfl, hrest, -⟩ := Beside.exists_cons hts
    exact ⟨rest', .leaf ht, hrest⟩
  | paren ht _ ih =>
    obtain rfl := Context.eq_symbol_of_opening ht rfl
    obtain ⟨ts₁, rfl, h₁⟩ := hst.step hts (by decide)
    obtain ⟨ts₂, hx, h₂⟩ := ih h₁
    obtain ⟨rest', rfl, hrest⟩ := hst.close h₂ (by decide)
    exact ⟨rest', .paren ht hx, hrest⟩
  | bar ht _ ih =>
    obtain rfl := Context.eq_symbol_of_opening ht rfl
    obtain ⟨ts₁, rfl, h₁⟩ := hst.step hts (by decide)
    obtain ⟨ts₂, hx, h₂⟩ := ih h₁
    obtain ⟨rest', rfl, hrest⟩ := hst.close h₂ (by decide)
    exact ⟨rest', .bar ht hx, hrest⟩
  | vector ht hrow _ ih =>
    obtain rfl := Context.eq_symbol_of_opening ht rfl
    obtain ⟨ts₁, rfl, h₁⟩ := hst.step hts (by decide)
    obtain ⟨rest', hx, hrest⟩ := ih h₁
    rw [h₁.lead_eq] at hrow
    exact ⟨rest', .vector ht hrow hx, hrest⟩
  | matrix ht _ _ ihx ihlater =>
    obtain rfl := Context.eq_symbol_of_opening ht rfl
    obtain ⟨ts₁, rfl, h₁⟩ := hst.step hts (by decide)
    obtain ⟨ts₂, hx, h₂⟩ := ihx h₁
    obtain ⟨ts₃, hlater, h₃⟩ := ihlater h₂
    obtain ⟨rest', rfl, hrest⟩ := hst.close h₃ (by decide)
    exact ⟨rest', .matrix ht hx hlater, hrest⟩
  | set ht _ _ ihx ihlater =>
    obtain rfl := Context.eq_symbol_of_opening ht rfl
    obtain ⟨ts₁, rfl, h₁⟩ := hst.step hts (by decide)
    obtain ⟨ts₂, hx, h₂⟩ := ihx h₁
    obtain ⟨ts₃, hlater, h₃⟩ := ihlater h₂
    obtain ⟨rest', rfl, hrest⟩ := hst.close h₃ (by decide)
    exact ⟨rest', .set ht hx hlater, hrest⟩
  | callNone ht _ hcount ih =>
    obtain ⟨ts₁, rfl, h₁⟩ := hst.name hts ht
    obtain ⟨ts₂, hdims, hbehind⟩ := ih h₁
    obtain ⟨ts₂, rfl, h₂⟩ := hst.step hbehind (by decide)
    obtain ⟨rest', rfl, hrest, -⟩ := h₂.exists_cons
    exact ⟨rest', .callNone ht hdims hcount, hrest⟩
  | callSome ht _ hsome _ _ hcount ihdims ihx ihlater =>
    obtain ⟨ts₁, rfl, h₁⟩ := hst.name hts ht
    obtain ⟨ts₂, hdims, hbehind⟩ := ihdims h₁
    obtain ⟨ts₂, rfl, h₂⟩ := hst.step hbehind (by decide)
    obtain ⟨ts₃, hx, h₃⟩ := ihx h₂
    obtain ⟨ts₄, hlater, h₄⟩ := ihlater h₃
    obtain ⟨rest', rfl, hrest⟩ := hst.close h₄ (by decide)
    exact ⟨rest', .callSome ht hdims hsome hx hlater hcount, hrest⟩
  | apply ht hangle hparen hone _ ih =>
    obtain ⟨ts₁, rfl, h₁⟩ := hst.name hts ht
    obtain ⟨rest', hx, hrest⟩ := ih h₁
    rw [h₁.lead_eq] at hangle hparen
    exact ⟨rest', .apply ht hangle hparen hone hx, hrest⟩
  | row _ ih =>
    obtain ⟨ts₁, rfl, h₁⟩ := hst.step hts (by decide)
    obtain ⟨rest', hx, hrest⟩ := ih h₁
    exact ⟨rest', .row hx, hrest⟩
  | empty =>
    obtain ⟨rest', rfl, hrest, -⟩ := Beside.exists_cons hts
    exact ⟨rest', .empty, hrest⟩
  | elements hclose _ _ ihx ihlater =>
    obtain ⟨ts₁, hx, h₁⟩ := ihx hts
    obtain ⟨ts₂, hlater, h₂⟩ := ihlater h₁
    obtain ⟨rest', rfl, hrest⟩ := hst.close h₂ (by decide)
    rw [Beside.lead_eq hts] at hclose
    exact ⟨rest', .elements hclose hx hlater, hrest⟩
  | stop hjoint => exact ⟨ts', .stop (hst.joint?_eq_none hts hjoint), hts⟩
  | step hjoint _ _ ihx ihlater =>
    obtain ⟨j, hjoint, hoperator, hpast⟩ := hst.joint?_eq_some hts hjoint
    obtain ⟨ts₁, hx, h₁⟩ := ihx hpast
    obtain ⟨rest', hlater, hrest⟩ := ihlater h₁
    exact ⟨rest', hoperator ▸ .step hjoint hx hlater, hrest⟩
  | noDimensions hangle => exact ⟨ts', .noDimensions (Beside.lead_eq hts ▸ hangle), hts⟩
  | dimensions _ _ ihx ihlater =>
    obtain ⟨ts₁, rfl, h₁⟩ := hst.step hts (by decide)
    obtain ⟨ts₂, hx, h₂⟩ := ihx h₁
    obtain ⟨ts₃, hlater, h₃⟩ := ihlater h₂
    obtain ⟨rest', rfl, hrest⟩ := hst.operator h₃ (by decide)
    exact ⟨rest', .dimensions hx hlater, hrest⟩

/-- A whole input that differs from another at the seam alone is read as the other. -/
theorem read (hst : Joins ctx s t) {tokens tokens' : List Token} {x : Term}
    (h : Beside s t tokens tokens') (hx : Grammar.read ctx .terms tokens () = .ok x ()) :
    Grammar.read ctx .terms tokens' () = .ok x () := by
  obtain ⟨rest, hx, hrest⟩ := hst.reads ((Grammar.read_eq_ok_iff ctx tokens x).1 hx) h
  obtain ⟨rest, rfl, hbeside⟩ := hst.operator hrest (by decide)
  cases hbeside
  exact (Grammar.read_eq_ok_iff ctx tokens' x).2 hx

end Joins

theorem Beside.append {s t : Token} {ts ts' : List Token} (h : Beside s t ts ts')
    (pre : List Token) : Beside s t (pre ++ ts) (pre ++ ts') := by
  induction pre with
  | nil => exact h
  | cons u pre ih => exact .cons u ih

namespace Grammar

/-- Wherever a name or an opening parenthesis follows an operand, a multiplication sign
between the two changes nothing: neither whether the input is read nor the term. -/
theorem read_juxtaposed {ctx : Context} (hctx : ctx.WellNamed) {s t : Token}
    (hs : s.EndsOperand ctx) (ht : t.Juxtaposes) (pre post : List Token) (x : Term) :
    read ctx .terms (pre ++ s :: t :: post) () = .ok x () ↔
      read ctx .terms (pre ++ s :: "*" :: t :: post) () = .ok x () := by
  have hst : Joins ctx s t := ⟨hctx, hs, ht⟩
  have hseam : Beside s t (s :: t :: post) (s :: "*" :: t :: post) :=
    .seam ⟨post, .inl rfl, .inr rfl⟩
  exact ⟨hst.read (hseam.append pre), hst.read (hseam.symm.append pre)⟩

/-- A coefficient stands under the minus sign and before a power. -/
theorem read_coefficient :
    read (.empty "none") .terms ["-", "2", "*", "x", "^", "3", Token.endMark] () =
      .ok (.node ".-" [.node "*" [.leaf (.int 2),
        .node "^" [.leaf (.var "x"), .leaf (.int 3)] []] []] []) () := by
  have hctx : (Context.empty "none").WellNamed := by
    intro table
    cases table <;> decide
  have hs : Token.EndsOperand (.empty "none") "2" := .inl (.inl (by decide))
  have ht : Token.Juxtaposes "x" := .inl (by decide)
  refine (read_juxtaposed hctx hs ht ["-"] ["^", "3", Token.endMark] _).1 ?_
  cbv

end Grammar

end TermReader
