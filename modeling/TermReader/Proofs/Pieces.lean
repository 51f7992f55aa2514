import TermReader.Proofs.Reads
import TermReader.Proofs.Splitting

/-!
What tokens fall into. Symbols, numerals without a letter and names of functions are left
whole. A whole number in front of the imaginary unit and an unknown name of letters fall
into operands, all of which but the first are names. Splitting makes no opening symbol.
-/

namespace TermReader

/-- A name that calls nothing is an operand. -/
theorem Context.leaf_of_isIdentifier {ctx : Context} {t : Token} (ht : t.isIdentifier = true)
    (hcall : ctx.opening t ≠ .call) : ∃ l, ctx.opening t = .leaf l := by
  by_cases hconst : t ∈ Token.constants
  · simp only [Token.constants, List.mem_cons, List.not_mem_nil, or_false] at hconst
    rcases hconst with rfl | rfl | rfl | rfl
    all_goals exact ⟨_, rfl⟩
  rw [opening_of_isIdentifier ht hconst] at hcall ⊢
  by_cases hirr : ctx.isIrrational t = true
  · exact ⟨_, if_pos hirr⟩
  rw [if_neg hirr] at hcall ⊢
  by_cases hfun : ctx.isFunction t = true
  · exact absurd (if_pos hfun) hcall
  · exact ⟨_, if_neg hfun⟩

namespace Token

variable {ctx : Context} {t : Token}

/-- Splitting leaves the token whole. -/
def Whole (ctx : Context) (t : Token) : Prop := pieces ctx t = [t]

/-- Nothing keeps the pieces of the token from being operands: no fraction stands in front
of the imaginary unit, and an unknown name has letters only, which call nothing one by one. -/
structure Divisible (ctx : Context) (t : Token) : Prop where
  numeral : t.isImaginary = true → realChars t.toList.dropLast = false
  name : isUnknownName ctx t = true → ∀ c ∈ t.toList, isLetter c = true ∧
    ctx.opening (String.ofList [c]) ≠ .call

/-- A token that is neither a name nor digits in front of a letter. -/
def IsSign (t : Token) : Prop := t.isIdentifier = false ∧ isCoefficientWord t.toList = false

instance (t : Token) : Decidable t.IsSign := inferInstanceAs (Decidable (_ ∧ _))

theorem whole_of_not_coefficient (hname : isUnknownName ctx t = false)
    (hword : isCoefficientWord t.toList = false) : t.Whole ctx := by
  unfold Whole pieces
  rw [hname, hword]
  rfl

theorem IsSign.whole (h : t.IsSign) : t.Whole ctx := by
  refine whole_of_not_coefficient ?_ h.2
  simp [isUnknownName, h.1]

/-- A token without letters is left whole. -/
theorem whole_of_forall_not_isLetter (h : ∀ c ∈ t.toList, isLetter c = false) : t.Whole ctx := by
  refine IsSign.whole ⟨?_, ?_⟩
  · unfold isIdentifier
    cases hcs : t.toList with
    | nil => rfl
    | cons c cs =>
      have hfirst := h c (hcs ▸ List.mem_cons_self)
      simp [identifierChars, hfirst]
  · unfold isCoefficientWord
    rw [Bool.and_eq_false_iff]
    right
    cases hlast : t.toList.getLast? with
    | none => rfl
    | some c => exact h c (List.mem_of_getLast? hlast)

theorem not_isLetter_of_isDigit {c : Char} (h : c.isDigit = true) : isLetter c = false := by
  rw [Bool.eq_false_iff]
  intro hletter
  rw [not_isDigit_of_isLetter hletter] at h
  cases h

theorem whole_of_isInteger (h : t.isInteger = true) : t.Whole ctx :=
  whole_of_forall_not_isLetter fun c hc =>
    not_isLetter_of_isDigit ((isDigit_of_integerChars h).2 c hc)

theorem whole_of_isReal (h : t.isReal = true) : t.Whole ctx := by
  obtain ⟨whole, fraction, hchars, hwhole, hfraction⟩ := eq_of_realChars h
  refine whole_of_forall_not_isLetter fun c hc => ?_
  rw [hchars] at hc
  rcases List.mem_append.1 hc with hc | hc
  · exact not_isLetter_of_isDigit ((isDigit_of_integerChars hwhole).2 c hc)
  rcases List.mem_cons.1 hc with rfl | hc
  · decide
  · exact not_isLetter_of_isDigit (hfraction c hc)

/-- A single character is left whole. -/
theorem whole_of_length_one (ctx : Context) (h : t.length = 1) : t.Whole ctx := by
  rw [← String.length_toList] at h
  obtain ⟨c, hc⟩ := List.length_eq_one_iff.1 h
  have hword : ¬ isCoefficientWord t.toList = true := fun hword => by
    have hlength := two_le_length hword
    omega
  unfold Whole pieces
  rw [if_neg hword, hc, List.map_singleton, ← hc, String.ofList_toList, ite_self]

theorem not_isCoefficientWord_of_isIdentifier (h : t.isIdentifier = true) :
    isCoefficientWord t.toList = false := by
  unfold isIdentifier at h
  unfold isCoefficientWord
  cases hcs : t.toList with
  | nil => rfl
  | cons c cs =>
    rw [hcs] at h
    have hletter := not_isDigit_of_isLetter (Bool.and_eq_true_iff.1 h).1
    simp [hletter]

/-- The name of a function is left whole. -/
theorem whole_of_call (hctx : ctx.WellNamed) (h : ctx.opening t = .call) : t.Whole ctx := by
  have hfun := Context.isFunction_of_opening h
  refine whole_of_not_coefficient ?_ ?_
  · simp [isUnknownName, hfun]
  · exact not_isCoefficientWord_of_isIdentifier (hctx.isIdentifier_of_isFunction hfun)

theorem isIdentifier_letter {c : Char} (hc : isLetter c = true) :
    isIdentifier (String.ofList [c]) = true := by
  simp [isIdentifier, identifierChars, hc]

/-- A name is left whole or falls into its characters. -/
theorem pieces_of_isIdentifier (ctx : Context) (ht : t.isIdentifier = true) :
    t.Whole ctx ∨ pieces ctx t = t.toList.map fun c => String.ofList [c] := by
  by_cases hname : isUnknownName ctx t = true
  · exact .inr (if_pos hname)
  · refine .inl (whole_of_not_coefficient (Bool.eq_false_iff.2 hname) ?_)
    exact not_isCoefficientWord_of_isIdentifier ht

/-- The first piece of a name is a name. -/
theorem isIdentifier_of_pieces {p : Token} {ps : List Token} (ht : t.isIdentifier = true)
    (h : pieces ctx t = p :: ps) : p.isIdentifier = true := by
  rcases pieces_of_isIdentifier ctx ht with hwhole | hletters
  · obtain ⟨rfl, -⟩ := List.cons.inj (hwhole.symm.trans h)
    exact ht
  · rw [hletters] at h
    obtain ⟨c, cs, hcs, rfl, -⟩ := List.map_eq_cons_iff.1 h
    unfold isIdentifier at ht
    rw [hcs] at ht
    exact isIdentifier_letter (Bool.and_eq_true_iff.1 ht).1

/-- A whole number and the imaginary unit behind it are taken apart. -/
theorem pieces_of_numeral (himag : t.isImaginary = true)
    (hint : integerChars t.toList.dropLast = true) :
    pieces ctx t = [String.ofList t.toList.dropLast, "i"] := by
  obtain ⟨digits, hchars, -⟩ := imaginaryChars_iff.1 himag
  rw [hchars, List.dropLast_concat] at hint ⊢
  obtain ⟨hne, hdigit⟩ := isDigit_of_integerChars hint
  obtain ⟨d, ds, rfl⟩ := List.exists_cons_of_ne_nil hne
  have hfirst : d.isDigit = true := hdigit d List.mem_cons_self
  have hname : isUnknownName ctx t = false := by
    have hletter := not_isLetter_of_isDigit hfirst
    simp [isUnknownName, isIdentifier, identifierChars, hchars, hletter]
  have hword : isCoefficientWord t.toList = true := by
    have hend : (d :: ds ++ ['i']).getLast? = some 'i' := List.getLast?_concat
    rw [hchars, isCoefficientWord, hend]
    simp only [List.cons_append, List.head?_cons, Option.any_some, hfirst, Bool.true_and]
    decide
  unfold pieces
  rw [if_neg (Bool.eq_false_iff.1 hname), if_pos hword, hchars,
    List.takeWhile_append_of_pos hdigit, List.dropWhile_append_of_pos hdigit]
  have hstop : ('i' : Char).isDigit = false := by decide
  simp [hstop]

/-- A numeral that can be converted has few enough digits. -/
theorem length_le_of_opening {l : Leaf} (h : ctx.opening t = .leaf l) (himag : t.isImaginary = true)
    (hint : integerChars t.toList.dropLast = true) : t.toList.dropLast.length ≤ digitLimit := by
  by_contra hlimit
  rw [Nat.not_le] at hlimit
  have hexcess : t.excessDigits? = some t.toList.dropLast.length := by
    have hbody : imaginaryChars t.toList = true := himag
    unfold excessDigits?
    simp only [hbody, hint, hlimit, if_true, decide_true, Bool.and_self]
  obtain ⟨htrue, hfalse, hinf⟩ := Context.ne_of_numeral (.inl himag)
  unfold Context.opening at h
  rw [if_neg htrue, if_neg hfalse, if_neg hinf, if_pos himag, hexcess] at h
  cases h

/-- An operand that is no name is a numeral. -/
theorem isNumeral_of_leaf {l : Leaf} (hctx : ctx.WellNamed) (ht : ctx.opening t = .leaf l)
    (hname : t.isIdentifier = false) :
    t.isImaginary = true ∨ t.isInteger = true ∨ t.isReal = true := by
  by_contra hnone
  simp only [not_or, Bool.not_eq_true] at hnone
  rw [hctx.opening_of_symbolic ⟨hname, hnone⟩] at ht
  unfold Context.Opening.ofSymbol at ht
  grind

/-- In front of the imaginary unit stands a number, unless this is the whole token. -/
theorem integerChars_of_isImaginary (himag : t.isImaginary = true) (hname : t.isIdentifier = false)
    (hreal : realChars t.toList.dropLast = false) : integerChars t.toList.dropLast = true := by
  obtain ⟨body, hchars, hbody⟩ := imaginaryChars_iff.1 himag
  rw [hchars, List.dropLast_concat] at hreal ⊢
  obtain rfl | hreal' | hint := hbody
  · rw [isIdentifier, hchars] at hname
    exact absurd hname (by decide)
  · rw [hreal] at hreal'
    cases hreal'
  · exact hint

/-- The pieces of an operand are operands, all of which but the first are names. -/
theorem Divisible.leaves {l : Leaf} (hctx : ctx.WellNamed) (h : t.Divisible ctx)
    (ht : ctx.opening t = .leaf l) :
    (∀ p ∈ pieces ctx t, ∃ l, ctx.opening p = .leaf l) ∧
      ∀ p ∈ (pieces ctx t).tail, p.isIdentifier = true := by
  have hkept (hwhole : t.Whole ctx) : (∀ p ∈ pieces ctx t, ∃ l, ctx.opening p = .leaf l) ∧
      ∀ p ∈ (pieces ctx t).tail, p.isIdentifier = true := by
    rw [show pieces ctx t = [t] from hwhole]
    exact ⟨List.forall_mem_singleton.2 ⟨l, ht⟩, List.forall_mem_nil _⟩
  by_cases hname : t.isIdentifier = true
  · by_cases hunknown : isUnknownName ctx t = true
    · have hpiece : ∀ p ∈ pieces ctx t,
          isIdentifier p = true ∧ ∃ l, ctx.opening p = .leaf l := by
        intro p hp
        rw [pieces, if_pos hunknown] at hp
        obtain ⟨c, hc, rfl⟩ := List.mem_map.1 hp
        obtain ⟨hletter, hcall⟩ := h.name hunknown c hc
        have hid := isIdentifier_letter hletter
        exact ⟨hid, Context.leaf_of_isIdentifier hid hcall⟩
      exact ⟨fun p hp => (hpiece p hp).2, fun p hp => (hpiece p (List.mem_of_mem_tail hp)).1⟩
    · refine hkept (whole_of_not_coefficient (Bool.eq_false_iff.2 hunknown) ?_)
      exact not_isCoefficientWord_of_isIdentifier hname
  rw [Bool.not_eq_true] at hname
  rcases isNumeral_of_leaf hctx ht hname with himag | hint | hreal
  · have hint := integerChars_of_isImaginary himag hname (h.numeral himag)
    have hdigits : isInteger (String.ofList t.toList.dropLast) = true := by
      rwa [isInteger, String.toList_ofList]
    have hlimit := length_le_of_opening ht himag hint
    rw [pieces_of_numeral himag hint]
    constructor
    · intro p hp
      rcases List.mem_cons.1 hp with rfl | hp
      · exact ⟨_, Context.opening_of_isInteger hdigits (by rwa [String.toList_ofList])⟩
      · obtain rfl := List.mem_singleton.1 hp
        exact ⟨_, rfl⟩
    · rw [List.tail_cons]
      decide
  · exact hkept (whole_of_isInteger hint)
  · exact hkept (whole_of_isReal hreal)

/-- The symbols that start what may follow a name. -/
def brackets : List Token := ["(", "<", "["]

theorem not_isPlain_of_mem_brackets {s : Token} (hs : s ∈ brackets) :
    ∀ c ∈ s.toList, isPlain c = false := by
  have hnone : brackets.all (fun s => s.toList.all fun c => !isPlain c) = true := by rfl
  intro c hc
  simpa using List.all_eq_true.1 (List.all_eq_true.1 hnone s hs) c hc

/-- No piece of a token is such a symbol, unless the token is this symbol. -/
theorem lead_split {s : Token} (hs : s ∈ brackets) {ts : List Token}
    (h : lead (split ctx ts) = s) : lead ts = s := by
  cases ts with
  | nil => exact h
  | cons t ts =>
    obtain ⟨p, ps, hpieces⟩ := List.exists_cons_of_ne_nil (pieces_ne_nil ctx t)
    rw [split, List.flatMap_cons, hpieces] at h
    rcases pieces_cases ctx t with hwhole | hplain
    · rw [hwhole] at hpieces
      obtain ⟨rfl, -⟩ := List.cons.inj hpieces
      exact h
    · obtain ⟨c, hc, hplain⟩ := hplain p (hpieces ▸ List.mem_cons_self)
      obtain rfl : p = s := h
      rw [not_isPlain_of_mem_brackets hs c hc] at hplain
      cases hplain

end Token

end TermReader
