import TermReader.Proofs.Openings
import TermReader.Token.Scan

/-!
How leaves are spelled. Names and numerals are words of letters, digits and points,
and the kinds of words do not overlap, except that the letter of the imaginary unit
is a name too. So every spelling of a leaf is classified as this leaf.
-/

namespace TermReader

namespace Token

/-- The characters of names and numerals. -/
def isPlain (c : Char) : Bool := isLetter c || c.isDigit || c == '.'

/-- A word is not empty and has no blanks and no delimiters. -/
def IsWord (t : Token) : Prop := t.toList ≠ [] ∧ ∀ c ∈ t.toList, isPlain c = true

theorem not_isDigit_of_isLetter {c : Char} (h : isLetter c = true) : c.isDigit = false := by
  rw [Bool.eq_false_iff]
  intro hdigit
  simp only [isLetter, Bool.or_eq_true, Char.isAlpha, Char.isUpper, Char.isLower, Char.isDigit,
    Bool.and_eq_true, decide_eq_true_eq, beq_iff_eq, UInt32.le_iff_toNat_le] at h hdigit
  rcases h with h | rfl
  · simp at h hdigit
    omega
  · revert hdigit
    decide

theorem isPlain_of_isLetter {c : Char} (h : isLetter c = true) : isPlain c = true := by
  simp [isPlain, h]

theorem isPlain_of_isDigit {c : Char} (h : c.isDigit = true) : isPlain c = true := by
  simp [isPlain, h]

/-- No character of a word separates or delimits. -/
theorem not_blank_of_isPlain {c : Char} (h : isPlain c = true) :
    isBlank c = false ∧ isDelimiter c = false := by
  have hother : (' ' :: '\t' :: '\n' :: delimiters).all (fun d => !isPlain d) = true := by rfl
  have hne : ∀ d ∈ ' ' :: '\t' :: '\n' :: delimiters, c ≠ d := by
    rintro d hd rfl
    have hplain := List.all_eq_true.1 hother c hd
    rw [h] at hplain
    cases hplain
  constructor
  · have hspace := hne ' ' (by simp)
    have htab := hne '\t' (by simp)
    have hline := hne '\n' (by simp)
    simp [isBlank, hspace, htab, hline]
  · rw [Bool.eq_false_iff]
    intro hmem
    exact hne c (by simpa [isDelimiter] using Or.inr (Or.inr (Or.inr hmem))) rfl

theorem isDigit_of_integerChars {cs : List Char} (h : integerChars cs = true) :
    cs ≠ [] ∧ ∀ c ∈ cs, c.isDigit = true := by
  cases cs with
  | nil => cases h
  | cons c cs =>
    refine ⟨List.cons_ne_nil _ _, List.forall_mem_cons.2 ?_⟩
    simp only [integerChars, Bool.or_eq_true, Bool.and_eq_true, beq_iff_eq, List.isEmpty_iff,
      isLeadingDigit, List.all_eq_true] at h
    rcases h with ⟨rfl, rfl⟩ | ⟨⟨hc, _⟩, hcs⟩
    · exact ⟨by decide, by simp⟩
    · exact ⟨hc, hcs⟩

/-- A real numeral is an integer numeral, a point and digits. -/
theorem eq_of_realChars {cs : List Char} (h : realChars cs = true) :
    ∃ whole fraction, cs = whole ++ '.' :: fraction ∧ integerChars whole = true ∧
      ∀ c ∈ fraction, c.isDigit = true := by
  unfold realChars at h
  split at h
  · cases h
  · next point fraction hdrop =>
    rw [Bool.and_eq_true, List.all_eq_true] at h
    have hpoint : point = '.' := by
      have := List.head?_dropWhile_not (· != '.') cs
      simpa [hdrop] using this
    have hsplit : cs.takeWhile (· != '.') ++ cs.dropWhile (· != '.') = cs :=
      List.takeWhile_append_dropWhile
    rw [hdrop, hpoint] at hsplit
    exact ⟨_, fraction, hsplit.symm, h.1, h.2⟩

theorem not_mem_point {cs : List Char} (h : integerChars cs = true) : '.' ∉ cs := fun hmem =>
  absurd ((isDigit_of_integerChars h).2 _ hmem) (by decide)

/-- The point in a numeral stands behind its integer part. -/
theorem span_point {whole : List Char} (h : integerChars whole = true) (fraction : List Char) :
    (whole ++ '.' :: fraction).takeWhile (· != '.') = whole ∧
      (whole ++ '.' :: fraction).dropWhile (· != '.') = '.' :: fraction := by
  have hpoint : ∀ c ∈ whole, (c != '.') = true := by
    intro c hc
    rw [bne_iff_ne]
    rintro rfl
    exact not_mem_point h hc
  rw [List.takeWhile_append_of_pos hpoint, List.dropWhile_append_of_pos hpoint]
  simp

theorem realChars_append {whole fraction : List Char} (hwhole : integerChars whole = true)
    (hfraction : ∀ c ∈ fraction, c.isDigit = true) :
    realChars (whole ++ '.' :: fraction) = true := by
  obtain ⟨htake, hdrop⟩ := span_point hwhole fraction
  simpa [realChars, htake, hdrop, hwhole] using hfraction

/-- In front of the letter of an imaginary numeral stands nothing, an integer numeral or a real
one. -/
theorem imaginaryChars_iff {cs : List Char} : imaginaryChars cs = true ↔
    ∃ body, cs = body ++ ['i'] ∧
      (body = [] ∨ realChars body = true ∨ integerChars body = true) := by
  rw [imaginaryChars, Bool.and_eq_true, beq_iff_eq, List.getLast?_eq_some_iff]
  constructor
  · rintro ⟨⟨body, rfl⟩, hbody⟩
    rw [List.dropLast_concat, Bool.or_eq_true, Bool.or_eq_true, List.isEmpty_iff, or_assoc] at hbody
    exact ⟨body, rfl, hbody⟩
  · rintro ⟨body, rfl, hbody⟩
    rw [List.dropLast_concat, Bool.or_eq_true, Bool.or_eq_true, List.isEmpty_iff, or_assoc]
    exact ⟨⟨body, rfl⟩, hbody⟩

theorem integerChars_cons_of_isLetter {c : Char} (h : isLetter c = true) (cs : List Char) :
    integerChars (c :: cs) = false := by
  rw [Bool.eq_false_iff]
  intro hint
  have hdigit := (isDigit_of_integerChars hint).2 c List.mem_cons_self
  rw [not_isDigit_of_isLetter h] at hdigit
  cases hdigit

theorem realChars_cons_of_isLetter {c : Char} (h : isLetter c = true) (cs : List Char) :
    realChars (c :: cs) = false := by
  rw [Bool.eq_false_iff]
  intro hreal
  obtain ⟨whole, fraction, heq, hwhole, _⟩ := eq_of_realChars hreal
  cases whole with
  | nil => cases hwhole
  | cons d whole =>
    obtain ⟨rfl, _⟩ := List.cons.inj heq
    rw [integerChars_cons_of_isLetter h] at hwhole
    cases hwhole

/-- A name is no numeral, unless it is the imaginary unit. -/
theorem not_numeral_of_isIdentifier {t : Token} (h : t.isIdentifier = true) (hi : t ≠ "i") :
    t.isImaginary = false ∧ t.isInteger = false ∧ t.isReal = false := by
  unfold isIdentifier at h
  unfold isImaginary isInteger isReal
  cases hcs : t.toList with
  | nil =>
    rw [hcs] at h
    cases h
  | cons c cs =>
    rw [hcs] at h
    have hc : isLetter c = true := (Bool.and_eq_true_iff.1 h).1
    refine ⟨?_, integerChars_cons_of_isLetter hc cs, realChars_cons_of_isLetter hc cs⟩
    unfold imaginaryChars
    cases cs with
    | nil =>
      have hne : c ≠ 'i' := by
        rintro rfl
        exact hi (String.toList_inj.1 hcs)
      simpa using hne
    | cons d cs =>
      rw [List.dropLast_cons_cons, integerChars_cons_of_isLetter hc,
        realChars_cons_of_isLetter hc]
      simp

theorem not_imaginary_of_last {cs : List Char} {c : Char} (h : cs.getLast? = some c)
    (hc : c ≠ 'i') : imaginaryChars cs = false := by
  unfold imaginaryChars
  rw [h, Bool.and_eq_false_iff]
  left
  simpa using hc

theorem not_imaginary_of_isInteger {t : Token} (h : t.isInteger = true) :
    t.isImaginary = false := by
  obtain ⟨hne, hdigit⟩ := isDigit_of_integerChars h
  refine not_imaginary_of_last (List.getLast?_eq_some_getLast hne) ?_
  intro hi
  have hlast := hdigit _ (List.getLast_mem hne)
  rw [hi] at hlast
  revert hlast
  decide

theorem not_imaginary_of_isReal {t : Token} (h : t.isReal = true) :
    t.isImaginary = false ∧ t.isInteger = false := by
  obtain ⟨whole, fraction, heq, _, hfraction⟩ := eq_of_realChars h
  unfold isImaginary isInteger
  rw [heq]
  constructor
  · rcases List.eq_nil_or_concat fraction with rfl | ⟨before, c, rfl⟩
    · exact not_imaginary_of_last (c := '.') (by simp) (by decide)
    · rw [List.concat_eq_append] at hfraction ⊢
      have hdigit : c.isDigit = true := hfraction c (by simp)
      have hlast : (whole ++ '.' :: (before ++ [c])).getLast? = some c :=
        List.getLast?_eq_some_iff.2 ⟨whole ++ '.' :: before, by simp⟩
      refine not_imaginary_of_last hlast ?_
      rintro rfl
      revert hdigit
      decide
  · rw [Bool.eq_false_iff]
    intro hint
    have hpoint := (isDigit_of_integerChars hint).2 '.' (by simp)
    revert hpoint
    decide

theorem isWord_of_isIdentifier {t : Token} (h : t.isIdentifier = true) : t.IsWord := by
  unfold isIdentifier at h
  unfold IsWord
  cases hcs : t.toList with
  | nil =>
    rw [hcs] at h
    cases h
  | cons c cs =>
    rw [hcs] at h
    obtain ⟨hc, hrest⟩ := Bool.and_eq_true_iff.1 h
    refine ⟨List.cons_ne_nil _ _, List.forall_mem_cons.2 ⟨isPlain_of_isLetter hc, ?_⟩⟩
    intro d hd
    rcases Bool.or_eq_true_iff.1 (List.all_eq_true.1 hrest d hd) with hletter | hdigit
    · exact isPlain_of_isLetter hletter
    · exact isPlain_of_isDigit hdigit

theorem isPlain_of_integerChars {cs : List Char} (h : integerChars cs = true) :
    ∀ c ∈ cs, isPlain c = true :=
  fun c hc => isPlain_of_isDigit ((isDigit_of_integerChars h).2 c hc)

theorem isPlain_of_realChars {cs : List Char} (h : realChars cs = true) :
    ∀ c ∈ cs, isPlain c = true := by
  obtain ⟨whole, fraction, rfl, hwhole, hfraction⟩ := eq_of_realChars h
  intro c hc
  rcases List.mem_append.1 hc with hc | hc
  · exact isPlain_of_integerChars hwhole c hc
  · rcases List.mem_cons.1 hc with rfl | hc
    · decide
    · exact isPlain_of_isDigit (hfraction c hc)

theorem isWord_of_isInteger {t : Token} (h : t.isInteger = true) : t.IsWord :=
  ⟨(isDigit_of_integerChars h).1, isPlain_of_integerChars h⟩

theorem isWord_of_isReal {t : Token} (h : t.isReal = true) : t.IsWord := by
  refine ⟨?_, isPlain_of_realChars h⟩
  obtain ⟨whole, fraction, heq, _⟩ := eq_of_realChars h
  rw [heq]
  exact List.append_ne_nil_of_right_ne_nil _ (List.cons_ne_nil _ _)

theorem isWord_of_isImaginary {t : Token} (h : t.isImaginary = true) : t.IsWord := by
  obtain ⟨body, heq, hbody⟩ := imaginaryChars_iff.1 h
  unfold IsWord
  rw [heq]
  refine ⟨by simp, ?_⟩
  intro c hc
  rcases List.mem_append.1 hc with hc | hc
  · rcases hbody with rfl | hreal | hint
    · cases hc
    · exact isPlain_of_realChars hreal c hc
    · exact isPlain_of_integerChars hint c hc
  · obtain rfl := List.mem_singleton.1 hc
    decide

end Token

/-- The words that spell a leaf. Integer numerals have at most as many digits as can
be converted, also in front of an imaginary unit; a name is not one of the words
for constants. -/
def Leaf.Spelled (ctx : Context) : Leaf → Token → Prop
  | truth value, t => t = if value then "true" else "false"
  | int value, t => t.isInteger = true ∧ t.toList.length ≤ Token.digitLimit ∧
      Token.natValue t.toList = value
  | real value, t => t.isReal = true ∧ Token.realValue t.toList = value
  | complex re im, t => re = .int 0 ∧ t.isImaginary = true ∧
      (Token.integerChars t.toList.dropLast = true →
        t.toList.dropLast.length ≤ Token.digitLimit) ∧
      Token.imaginaryValue t.toList.dropLast = im
  | infinity, t => t = Context.infinityName
  | irrational name, t => t = name ∧ ctx.isIrrational name = true ∧ name ∉ Token.constants
  | var name, t => t = name ∧ (Leaf.var name).Formed ctx

namespace Context

variable {ctx : Context} {t : Token}

/-- A name other than the words for constants is classified by the context. -/
theorem opening_of_isIdentifier (h : t.isIdentifier = true) (ht : t ∉ Token.constants) :
    ctx.opening t = if ctx.isIrrational t then .leaf (.irrational t)
      else if ctx.isFunction t then .call else .leaf (.var t) := by
  simp only [Token.constants, List.mem_cons, List.not_mem_nil, or_false, not_or] at ht
  obtain ⟨htrue, hfalse, hinf, hi⟩ := ht
  obtain ⟨himag, hint, hreal⟩ := Token.not_numeral_of_isIdentifier h hi
  unfold opening
  rw [if_neg htrue, if_neg hfalse, if_neg hinf]
  simp only [himag, hint, hreal, h, Bool.false_eq_true, if_false, if_true]

theorem excessDigits?_eq_none {cs : List Char}
    (hlimit : Token.integerChars cs = true → cs.length ≤ Token.digitLimit)
    (hcs : (if Token.imaginaryChars t.toList then t.toList.dropLast else t.toList) = cs) :
    t.excessDigits? = none := by
  unfold Token.excessDigits?
  dsimp only
  rw [hcs]
  refine if_neg ?_
  rw [Bool.and_eq_true, decide_eq_true_eq, not_and, Nat.not_lt]
  exact hlimit

/-- Truth values and infinity are no numerals. -/
theorem ne_of_numeral (h : t.isImaginary = true ∨ t.isInteger = true ∨ t.isReal = true) :
    t ≠ "true" ∧ t ≠ "false" ∧ t ≠ infinityName := by
  have hother : ∀ s ∈ ["true", "false", infinityName],
      ¬ (Token.isImaginary s = true ∨ Token.isInteger s = true ∨ Token.isReal s = true) := by
    decide
  have hne : ∀ s ∈ ["true", "false", infinityName], t ≠ s := by
    rintro s hs rfl
    exact hother t hs h
  exact ⟨hne _ (by decide), hne _ (by decide), hne _ (by decide)⟩

theorem opening_of_isImaginary (h : t.isImaginary = true)
    (hlimit : Token.integerChars t.toList.dropLast = true →
      t.toList.dropLast.length ≤ Token.digitLimit) :
    ctx.opening t = .leaf (.complex (.int 0) (Token.imaginaryValue t.toList.dropLast)) := by
  obtain ⟨htrue, hfalse, hinf⟩ := ne_of_numeral (.inl h)
  have hexcess := excessDigits?_eq_none hlimit (if_pos h)
  unfold opening
  rw [if_neg htrue, if_neg hfalse, if_neg hinf]
  simp only [h, hexcess, if_true]

theorem opening_of_isInteger (h : t.isInteger = true)
    (hlimit : t.toList.length ≤ Token.digitLimit) :
    ctx.opening t = .leaf (.int (Token.natValue t.toList)) := by
  obtain ⟨htrue, hfalse, hinf⟩ := ne_of_numeral (.inr (.inl h))
  have himag : t.isImaginary = false := Token.not_imaginary_of_isInteger h
  have hexcess : t.excessDigits? = none :=
    excessDigits?_eq_none (fun _ => hlimit) (if_neg (Bool.eq_false_iff.1 himag))
  unfold opening
  rw [if_neg htrue, if_neg hfalse, if_neg hinf]
  simp only [h, himag, hexcess, Bool.false_eq_true, if_false, if_true]

theorem opening_of_isReal (h : t.isReal = true) :
    ctx.opening t = .leaf (.real (Token.realValue t.toList)) := by
  obtain ⟨htrue, hfalse, hinf⟩ := ne_of_numeral (.inr (.inr h))
  obtain ⟨himag, hint⟩ := Token.not_imaginary_of_isReal h
  unfold opening
  rw [if_neg htrue, if_neg hfalse, if_neg hinf]
  simp only [h, himag, hint, Bool.false_eq_true, if_false, if_true]

end Context

namespace Leaf.Spelled

variable {ctx : Context} {l : Leaf} {t : Token}

/-- A spelling of a leaf is classified as the leaf. -/
theorem opening (hctx : ctx.WellNamed) (h : l.Spelled ctx t) : ctx.opening t = .leaf l := by
  cases l with
  | truth value =>
    obtain rfl := h
    cases value
    · rfl
    · rfl
  | int value =>
    obtain ⟨hint, hlimit, rfl⟩ := h
    exact Context.opening_of_isInteger hint hlimit
  | real value =>
    obtain ⟨hreal, rfl⟩ := h
    exact Context.opening_of_isReal hreal
  | complex re im =>
    obtain ⟨rfl, himag, hlimit, rfl⟩ := h
    exact Context.opening_of_isImaginary himag hlimit
  | infinity =>
    obtain rfl := h
    rfl
  | irrational name =>
    obtain ⟨rfl, hirr, hname⟩ := h
    rw [Context.opening_of_isIdentifier (hctx.isIdentifier_of_isIrrational hirr) hname,
      if_pos hirr]
  | var name =>
    obtain ⟨rfl, hid, hfun, hirr, hname⟩ := h
    rw [Context.opening_of_isIdentifier hid hname, if_neg (Bool.eq_false_iff.1 hirr),
      if_neg (Bool.eq_false_iff.1 hfun)]

theorem isWord (hctx : ctx.WellNamed) (h : l.Spelled ctx t) : t.IsWord := by
  cases l with
  | truth value =>
    obtain rfl := h
    cases value
    · exact Token.isWord_of_isIdentifier (by decide)
    · exact Token.isWord_of_isIdentifier (by decide)
  | int => exact Token.isWord_of_isInteger h.1
  | real => exact Token.isWord_of_isReal h.1
  | complex => exact Token.isWord_of_isImaginary h.2.1
  | infinity =>
    obtain rfl := h
    exact Token.isWord_of_isIdentifier (by decide)
  | irrational name =>
    obtain ⟨rfl, hirr, _⟩ := h
    exact Token.isWord_of_isIdentifier (hctx.isIdentifier_of_isIrrational hirr)
  | var name =>
    obtain ⟨rfl, hid, _⟩ := h
    exact Token.isWord_of_isIdentifier hid

end Leaf.Spelled

end TermReader
