import TermReader.Grammar.Phrase
import Mathlib

/-!
Which tokens open which primary phrases. A token is classified by the first test
that it passes, so a leaf is never a name that another test would have claimed.
In a well named context, where no name is a symbol, the four opening symbols open
their phrases and all other symbols open nothing.
-/

namespace TermReader

/-- The words that stand for constants in every context. -/
def Token.constants : List Token := ["true", "false", Context.infinityName, "i"]

/-- A leaf as an expression can contain it. Numbers have no sign, so a complex
constant is a multiple of the imaginary unit by an unsigned number. -/
def Leaf.Formed (ctx : Context) : Leaf → Prop
  | complex re _ => re = .int 0
  | irrational name => ctx.isIrrational name = true
  | var name => Token.isIdentifier name = true ∧ ctx.isFunction name = false ∧
      ctx.isIrrational name = false ∧ name ∉ Token.constants
  | truth _ | int _ | real _ | infinity => True

/-- No name and no numeral. -/
def Token.Symbolic (t : Token) : Prop :=
  Token.isIdentifier t = false ∧ Token.isImaginary t = false ∧ Token.isInteger t = false ∧
    Token.isReal t = false

instance (t : Token) : Decidable (Token.Symbolic t) :=
  inferInstanceAs (Decidable (_ ∧ _ ∧ _ ∧ _))

namespace Context

namespace Opening

/-- The opening symbols and what they open. -/
def ofSymbol (t : Token) : Opening :=
  if t = "(" then paren else if t = "|" then bar else if t = "[" then bracket
  else if t = "\x7b" then brace else none

/-- The symbol that opens a bracketed phrase. -/
def symbol? : Opening → Option Token
  | paren => some "("
  | bar => some "|"
  | bracket => some "["
  | brace => some "\x7b"
  | leaf _ | excess _ | call | none => Option.none

theorem eq_of_symbol?_ofSymbol {t s : Token} (h : (ofSymbol t).symbol? = some s) : t = s := by
  unfold ofSymbol at h
  split at h
  · next ht => exact ht.trans (Option.some.inj h)
  split at h
  · next ht => exact ht.trans (Option.some.inj h)
  split at h
  · next ht => exact ht.trans (Option.some.inj h)
  split at h
  · next ht => exact ht.trans (Option.some.inj h)
  · cases h

end Opening

/-- Past the leaves and the calls a token is classified by the opening symbols. -/
theorem opening_cases (ctx : Context) (t : Token) :
    (∃ l, ctx.opening t = .leaf l ∧ l.Formed ctx) ∨ (∃ n, ctx.opening t = .excess n) ∨
      (ctx.opening t = .call ∧ ctx.isFunction t = true) ∨ ctx.opening t = .ofSymbol t := by
  unfold opening
  by_cases htrue : t = "true"
  · exact .inl ⟨_, if_pos htrue, trivial⟩
  rw [if_neg htrue]
  by_cases hfalse : t = "false"
  · exact .inl ⟨_, if_pos hfalse, trivial⟩
  rw [if_neg hfalse]
  by_cases hinf : t = infinityName
  · exact .inl ⟨_, if_pos hinf, trivial⟩
  rw [if_neg hinf]
  by_cases himag : t.isImaginary = true
  · rw [if_pos himag]
    cases t.excessDigits? with
    | some n => exact .inr (.inl ⟨n, rfl⟩)
    | none => exact .inl ⟨_, rfl, rfl⟩
  rw [if_neg himag]
  by_cases hint : t.isInteger = true
  · rw [if_pos hint]
    cases t.excessDigits? with
    | some n => exact .inr (.inl ⟨n, rfl⟩)
    | none => exact .inl ⟨_, rfl, trivial⟩
  rw [if_neg hint]
  by_cases hreal : t.isReal = true
  · exact .inl ⟨_, if_pos hreal, trivial⟩
  rw [if_neg hreal]
  by_cases hirr : ctx.isIrrational t = true
  · exact .inl ⟨_, if_pos hirr, hirr⟩
  rw [if_neg hirr]
  by_cases hfun : ctx.isFunction t = true
  · exact .inr (.inr (.inl ⟨if_pos hfun, hfun⟩))
  rw [if_neg hfun]
  by_cases hid : t.isIdentifier = true
  · have hi : t ≠ "i" := by
      rintro rfl
      exact himag (by decide)
    refine .inl ⟨_, if_pos hid, hid, by simpa using hfun, by simpa using hirr, ?_⟩
    simp only [Token.constants, List.mem_cons, List.not_mem_nil, or_false, not_or]
    exact ⟨htrue, hfalse, hinf, hi⟩
  · rw [if_neg hid]
    exact .inr (.inr (.inr rfl))

variable {ctx : Context} {t : Token}

theorem formed_of_opening {l : Leaf} (h : ctx.opening t = .leaf l) : l.Formed ctx := by
  rcases ctx.opening_cases t with ⟨l', hl, hformed⟩ | ⟨n, hn⟩ | ⟨hcall, _⟩ | hsymbol
  · rw [hl] at h
    cases h
    exact hformed
  · rw [hn] at h
    cases h
  · rw [hcall] at h
    cases h
  · rw [hsymbol] at h
    unfold Opening.ofSymbol at h
    grind

theorem isFunction_of_opening (h : ctx.opening t = .call) : ctx.isFunction t = true := by
  rcases ctx.opening_cases t with ⟨l', hl, _⟩ | ⟨n, hn⟩ | ⟨_, hfun⟩ | hsymbol
  · rw [hl] at h
    cases h
  · rw [hn] at h
    cases h
  · exact hfun
  · rw [hsymbol] at h
    unfold Opening.ofSymbol at h
    grind

/-- An opening symbol is known from what it opens. -/
theorem eq_symbol_of_opening {o : Opening} {s : Token} (h : ctx.opening t = o)
    (hs : o.symbol? = some s) : t = s := by
  rcases ctx.opening_cases t with ⟨l, hl, _⟩ | ⟨n, hn⟩ | ⟨hcall, _⟩ | hsymbol
  · rw [← h, hl] at hs
    cases hs
  · rw [← h, hn] at hs
    cases hs
  · rw [← h, hcall] at hs
    cases hs
  · rw [← h, hsymbol] at hs
    exact Opening.eq_of_symbol?_ofSymbol hs

/-- A token is classified by the constants and the functions of a context alone. -/
theorem opening_congr {ctx' : Context} (hirr : ctx'.isIrrational t = ctx.isIrrational t)
    (hfun : ctx'.isFunction t = ctx.isFunction t) : ctx'.opening t = ctx.opening t := by
  simp only [opening, hirr, hfun]

theorem mem_arities_iff {n : Nat} :
    n ∈ ctx.arities t ↔ ∃ table, t ∈ ctx.names table ∧ table.arity? = some n := by
  unfold arities
  rw [List.mem_filterMap]
  constructor
  · rintro ⟨table, _, h⟩
    by_cases ht : t ∈ ctx.names table
    · rw [if_pos ht] at h
      exact ⟨table, ht, h⟩
    · rw [if_neg ht] at h
      cases h
  · rintro ⟨table, ht, h⟩
    exact ⟨table, by cases table <;> decide, (if_pos ht).trans h⟩

theorem isFunction_iff : ctx.isFunction t = true ↔ ∃ n, n ∈ ctx.arities t := by
  unfold isFunction
  rw [Bool.not_eq_true', List.isEmpty_eq_false_iff_exists_mem]

/-- No function of no arguments takes arguments under the same name. -/
def NullaryApart (ctx : Context) : Prop :=
  ∀ name ∈ ctx.names .nullary, ∀ table, table ≠ .nullary → table ≠ .irrationals →
    name ∉ ctx.names table

theorem NullaryApart.eq_zero (hnull : ctx.NullaryApart) {n : Nat} (hzero : 0 ∈ ctx.arities t)
    (hn : n ∈ ctx.arities t) : n = 0 := by
  obtain ⟨table, ht, harity⟩ := mem_arities_iff.1 hzero
  obtain ⟨table', ht', harity'⟩ := mem_arities_iff.1 hn
  obtain rfl : table = .nullary := by cases table <;> simp_all [NameTable.arity?]
  by_contra hne
  refine hnull t ht table' ?_ ?_ ht'
  · rintro rfl
    exact hne (Option.some.inj harity').symm
  · rintro rfl
    cases harity'

/-- A function of a well named context is an identifier. -/
theorem WellNamed.isIdentifier_of_isFunction (hctx : ctx.WellNamed)
    (h : ctx.isFunction t = true) : t.isIdentifier = true := by
  obtain ⟨n, hn⟩ := isFunction_iff.1 h
  obtain ⟨table, ht, _⟩ := mem_arities_iff.1 hn
  exact hctx table t ht

theorem WellNamed.isIdentifier_of_isIrrational (hctx : ctx.WellNamed)
    (h : ctx.isIrrational t = true) : t.isIdentifier = true :=
  hctx .irrationals t (by simpa [isIrrational] using h)

/-- In a well named context a symbol opens what it stands for. -/
theorem WellNamed.opening_of_symbolic (hctx : ctx.WellNamed) (ht : t.Symbolic) :
    ctx.opening t = .ofSymbol t := by
  obtain ⟨hid, himag, hint, hreal⟩ := ht
  have hne {s : Token} (hs : s.isIdentifier = true) : t ≠ s := by
    rintro rfl
    rw [hid] at hs
    cases hs
  have hirr : ctx.isIrrational t = false := by
    rw [Bool.eq_false_iff]
    exact fun h => hne (hctx.isIdentifier_of_isIrrational h) rfl
  have hfun : ctx.isFunction t = false := by
    rw [Bool.eq_false_iff]
    exact fun h => hne (hctx.isIdentifier_of_isFunction h) rfl
  unfold opening
  rw [if_neg (hne (by decide)), if_neg (hne (by decide)), if_neg (hne (by decide))]
  simp only [himag, hint, hreal, hirr, hfun, hid, Bool.false_eq_true, if_false]
  rfl

theorem WellNamed.opening_ne_excess (hctx : ctx.WellNamed) (ht : t.Symbolic) {digits : Nat} :
    ctx.opening t ≠ .excess digits := by
  rw [hctx.opening_of_symbolic ht, Opening.ofSymbol]
  split_ifs <;> exact nofun

/-- What opens a phrase is no sign. -/
theorem WellNamed.ne_sign (hctx : ctx.WellNamed) (ht : ctx.opening t ≠ .none) :
    t ≠ "-" ∧ t ≠ "!" := by
  constructor
  · exact fun h => ht (h ▸ hctx.opening_of_symbolic (by decide))
  · exact fun h => ht (h ▸ hctx.opening_of_symbolic (by decide))

theorem wellNamed_standard : standard.WellNamed := by
  intro table
  cases table <;> decide

theorem nullaryApart_standard : standard.NullaryApart := by
  intro name hname table
  revert name
  cases table <;> decide

end Context

end TermReader
