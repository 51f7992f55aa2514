import TermReader.Proofs.Spelling
import TermReader.Number.Conversion

/-!
Which texts are converted to numbers. The conversions are partial, and all that a numeral gives
them is accepted, except for integers beyond the digit limit. So what the spelling of a token
tells about its value is what the conversion yields.
-/

namespace TermReader

namespace Text

section Digits

variable {c : Char} {cs : List Char}

theorem toNat_of_isDigit (h : c.isDigit = true) : 48 ≤ c.toNat ∧ c.toNat ≤ 57 := by
  simpa [Char.isDigit, UInt32.le_iff_toNat_le] using h

/-- The ASCII digits are the first row of digits. -/
theorem digit?_of_isDigit (h : c.isDigit = true) : digit? c = some (c.toNat - '0'.toNat) := by
  obtain ⟨hle, hge⟩ := toNat_of_isDigit h
  have hrow : (decide (0x30 ≤ c.toNat) && decide (c.toNat < 0x30 + 10)) = true := by
    simp only [Bool.and_eq_true, decide_eq_true_eq]
    omega
  have hfind : zeros.find? (fun first => first ≤ c.toNat && c.toNat < first + 10) = some 0x30 :=
    List.find?_cons_of_pos hrow
  rw [digit?, hfind]
  rfl

theorem isDigit_of_isDigit (h : c.isDigit = true) : isDigit c = true := by
  rw [isDigit, digit?_of_isDigit h]
  rfl

theorem not_isBlank_of_isDigit (h : c.isDigit = true) : isBlank c = false := by
  obtain ⟨hle, hge⟩ := toNat_of_isDigit h
  simp only [isBlank, blankChars, List.contains_eq_mem, decide_eq_false_iff_not, List.mem_cons,
    List.not_mem_nil, or_false]
  omega

theorem mapM_digit? (h : ∀ c ∈ cs, c.isDigit = true) :
    cs.mapM digit? = some (cs.map fun c => c.toNat - '0'.toNat) := by
  induction cs with
  | nil => rfl
  | cons c cs ih =>
    obtain ⟨hc, hcs⟩ := List.forall_mem_cons.1 h
    rw [List.mapM_cons, digit?_of_isDigit hc, ih hcs]
    rfl

theorem barredDigits?_eq (hne : cs ≠ []) (h : ∀ c ∈ cs, c.isDigit = true) :
    barredDigits? cs = some (cs.map fun c => c.toNat - '0'.toNat) := by
  fun_induction barredDigits? cs with
  | case1 => exact absurd rfl hne
  | case2 c =>
    rw [digit?_of_isDigit (h c List.mem_cons_self)]
    rfl
  | case3 c d rest hnone =>
    rw [digit?_of_isDigit (h c List.mem_cons_self)] at hnone
    cases hnone
  | case4 c rest n hn ih => exact absurd (h '_' (by simp)) (by decide)
  | case5 c d rest n hn hd ih =>
    obtain ⟨hc, hcs⟩ := List.forall_mem_cons.1 h
    rw [digit?_of_isDigit hc] at hn
    rw [ih (List.cons_ne_nil _ _) hcs, ← Option.some.inj hn]
    rfl

/-- The value of a row of digits. -/
theorem foldl_digits (cs : List Char) :
    (cs.map fun c => c.toNat - '0'.toNat).foldl (fun value n => 10 * value + n) 0 =
      Token.natValue cs := by
  rw [List.foldl_map]
  rfl

theorem trim_eq {kind : Char → Bool} (h : ∀ c ∈ cs, kind c = false) : trim kind cs = cs := by
  have hdrop {cs : List Char} (h : ∀ c ∈ cs, kind c = false) : cs.dropWhile kind = cs := by
    cases cs with
    | nil => rfl
    | cons c cs => rw [List.dropWhile_cons_of_neg (by simp [h c List.mem_cons_self])]
  have hreverse : ∀ c ∈ cs.reverse, kind c = false := fun c hc => h c (List.mem_reverse.1 hc)
  rw [trim, hdrop h, hdrop hreverse, List.reverse_reverse]

/-- A row of digits is an integer, unless there are too many of them. -/
theorem int?_eq {text : String} (hne : text.toList ≠ [])
    (h : ∀ c ∈ text.toList, c.isDigit = true) (limit : Nat) :
    int? limit text = if limit < text.toList.length then none
      else some (Token.natValue text.toList : Int) := by
  obtain ⟨c, cs, hcs⟩ := List.exists_cons_of_ne_nil hne
  have hdigits := barredDigits?_eq hne h
  have hvalue := foldl_digits text.toList
  have htrim := trim_eq fun c hc => not_isBlank_of_isDigit (h c hc)
  -- a digit in front is no sign
  have hsign : c ≠ '-' ∧ c ≠ '+' := by
    have hc := h c (hcs ▸ List.mem_cons_self)
    constructor
    · rintro rfl
      exact absurd hc (by decide)
    · rintro rfl
      exact absurd hc (by decide)
  have hlength : (text.toList.map fun c => c.toNat - '0'.toNat).length = text.toList.length :=
    List.length_map _
  generalize (text.toList.map fun c => c.toNat - '0'.toNat) = values at *
  rw [hcs] at hdigits hvalue htrim hlength ⊢
  simp [int?, hcs, htrim, hsign, hdigits, hvalue, hlength]

theorem takeWhile_digits (rest : List Char) (h : ∀ c ∈ cs, c.isDigit = true)
    (hrest : ∀ c ∈ rest.head?, isDigit c = false) :
    (cs ++ rest).takeWhile isDigit = cs ∧ (cs ++ rest).dropWhile isDigit = rest := by
  have hcs : ∀ c ∈ cs, isDigit c = true := fun c hc => isDigit_of_isDigit (h c hc)
  rw [List.takeWhile_append_of_pos hcs, List.dropWhile_append_of_pos hcs]
  cases rest with
  | nil => exact ⟨List.append_nil cs, rfl⟩
  | cons c rest =>
    have hc : ¬ isDigit c = true := by simp [hrest c rfl]
    rw [List.takeWhile_cons_of_neg hc, List.dropWhile_cons_of_neg hc, List.append_nil]
    exact ⟨rfl, rfl⟩

/-- Digits with a point behind the first of them are a decimal. -/
theorem decimal?_eq {text : String} {whole fraction : List Char}
    (htext : text.toList = whole ++ '.' :: fraction) (hne : whole ≠ [])
    (hwhole : ∀ c ∈ whole, c.isDigit = true) (hfraction : ∀ c ∈ fraction, c.isDigit = true) :
    decimal? text = some (Binary64.ofRatio (Token.natValue (whole ++ fraction))
      (Nat.pow 10 fraction.length)) := by
  have hpoint : isDigit '.' = false := by decide
  obtain ⟨htake, hdrop⟩ := takeWhile_digits ('.' :: fraction) hwhole
    (by rintro c ⟨⟩; exact hpoint)
  obtain ⟨htake', hdrop'⟩ := takeWhile_digits [] hfraction (by simp)
  rw [List.append_nil] at htake' hdrop'
  have hdigits : ∀ c ∈ whole ++ fraction, c.isDigit = true := by
    simpa only [List.forall_mem_append] using And.intro hwhole hfraction
  unfold decimal?
  rw [htext, htake, hdrop]
  have hvalue := foldl_digits (whole ++ fraction)
  have hsome : (whole ++ fraction).map (fun c => c.toNat - '0'.toNat) ≠ [] := by simp [hne]
  generalize hvalues : (whole ++ fraction).map (fun c => c.toNat - '0'.toNat) = values at *
  obtain ⟨n, ns, rfl⟩ := List.exists_cons_of_ne_nil hsome
  simp only [htake', hdrop', mapM_digit? hdigits, hvalues, hvalue]

end Digits

end Text

namespace Token

/-- An integer numeral, or an imaginary numeral without a point, of so many digits, and these are
too many. -/
def Oversized (t : Token) (digits : Nat) : Prop :=
  digitLimit < digits ∧ (t.isInteger = true ∧ t.toList.length = digits ∨
    t.isImaginary = true ∧ '.' ∉ t.toList ∧ t.toList.length = digits + 1)

section Conversion

variable {t : Token}

theorem number?_of_isInteger (h : t.isInteger = true) (limit : Nat) :
    t.number? limit = if limit < t.toList.length then none
      else some (.int (natValue t.toList)) := by
  obtain ⟨hne, hdigit⟩ := isDigit_of_integerChars h
  rw [number?, if_pos h, Text.int?_eq hne hdigit]
  split
  · rfl
  · rfl

theorem number?_of_isReal (h : t.isReal = true) (limit : Nat) :
    t.number? limit = some (.real (realValue t.toList)) := by
  obtain ⟨whole, fraction, hchars, hwhole, hfraction⟩ := eq_of_realChars h
  obtain ⟨hne, hdigit⟩ := isDigit_of_integerChars hwhole
  have hvalue : realValue t.toList =
      Binary64.ofRatio (natValue (whole ++ fraction)) (Nat.pow 10 fraction.length) := by
    obtain ⟨htake, hdrop⟩ := span_point hwhole fraction
    unfold realValue
    rw [hchars, htake, hdrop]
    rfl
  rw [number?, if_neg (Bool.eq_false_iff.1 (not_imaginary_of_isReal h).2),
    Text.decimal?_eq hchars hne hdigit hfraction, hvalue]
  rfl

theorem magnitude_of_not_isImaginary (h : t.isImaginary = false) : t.magnitude = t :=
  if_neg (Bool.eq_false_iff.1 h)

/-- The magnitude of an imaginary numeral is what stands in front of the letter, if anything
does. -/
theorem exists_body (h : t.isImaginary = true) : ∃ body, t.toList = body ++ ['i'] ∧
    (body = [] ∧ t.magnitude = "1" ∨
      t.magnitude = String.ofList body ∧ (realChars body = true ∨ integerChars body = true)) := by
  obtain ⟨body, hchars, hbody⟩ := imaginaryChars_iff.1 h
  refine ⟨body, hchars, ?_⟩
  unfold magnitude
  rw [if_pos h, hchars, List.dropLast_concat]
  by_cases hempty : body = []
  · exact .inl ⟨hempty, if_pos (List.isEmpty_iff.2 hempty)⟩
  · exact .inr ⟨if_neg (mt List.isEmpty_iff.1 hempty), hbody.resolve_left hempty⟩

/-- An imaginary numeral stands for its magnitude, the letter alone for one. -/
theorem magnitude_of_isImaginary (h : t.isImaginary = true) :
    (t.magnitude.isInteger = true ∧
        imaginaryValue t.toList.dropLast = .int (natValue t.magnitude.toList)) ∨
      t.magnitude.isReal = true ∧
        imaginaryValue t.toList.dropLast = .real (realValue t.magnitude.toList) := by
  obtain ⟨body, hchars, ⟨rfl, hmagnitude⟩ | ⟨hmagnitude, hbody⟩⟩ := exists_body h
  · rw [hchars, hmagnitude]
    exact .inl ⟨rfl, rfl⟩
  · rw [hchars, hmagnitude, List.dropLast_concat, isInteger, isReal, String.toList_ofList,
      imaginaryValue]
    have hempty : ¬ body.isEmpty = true := by
      intro hempty
      rw [List.isEmpty_iff.1 hempty] at hbody
      exact absurd hbody (by decide)
    rw [if_neg hempty]
    by_cases hint : integerChars body = true
    · exact .inl ⟨hint, if_pos hint⟩
    · exact .inr ⟨hbody.resolve_right hint, if_neg hint⟩

/-- The number of digits is what counts in an integer numeral, and in an imaginary numeral that
has one in front of the letter. -/
theorem excessDigits?_eq (t : Token) :
    t.excessDigits? =
      if t.magnitude.isInteger = true ∧ digitLimit < t.magnitude.toList.length
      then some t.magnitude.toList.length else none := by
  unfold excessDigits? magnitude
  by_cases himag : t.isImaginary = true
  · have hchars : imaginaryChars t.toList = true := himag
    by_cases hempty : t.toList.dropLast.isEmpty = true
    · have hone : ¬ digitLimit < 1 := by decide
      simp [hchars, himag, List.isEmpty_iff.1 hempty, integerChars, hone]
    · simp only [hchars, himag, hempty, if_true, Bool.false_eq_true, if_false, isInteger,
        String.toList_ofList, Bool.and_eq_true, decide_eq_true_eq]
  · have hchars : imaginaryChars t.toList = false := Bool.eq_false_iff.2 himag
    simp only [hchars, himag, Bool.false_eq_true, if_false, isInteger, Bool.and_eq_true,
      decide_eq_true_eq]

/-- An oversized imaginary numeral is one with too many digits in front of the letter. -/
theorem oversized_of_isImaginary_iff (h : t.isImaginary = true) {d : Nat} (hd : digitLimit < d) :
    ('.' ∉ t.toList ∧ t.toList.length = d + 1) ↔
      t.magnitude.isInteger = true ∧ t.magnitude.toList.length = d := by
  obtain ⟨body, hchars, ⟨rfl, hmagnitude⟩ | ⟨hmagnitude, hbody⟩⟩ := exists_body h
  · have hlimit : ¬ digitLimit < 1 := by decide
    have hone : ("1" : String).toList.length = 1 := rfl
    rw [hchars, hmagnitude, hone, List.nil_append, List.length_singleton]
    constructor
    · rintro ⟨-, hlength⟩
      omega
    · rintro ⟨-, hlength⟩
      exact absurd (hlength ▸ hd) hlimit
  · rw [hchars, hmagnitude, isInteger, String.toList_ofList, List.length_append,
      List.length_singleton, Nat.add_right_cancel_iff]
    refine and_congr_left fun _ => ⟨fun hpoint => ?_, fun hint => ?_⟩
    · refine hbody.resolve_left fun hreal => ?_
      obtain ⟨whole, fraction, rfl, -, -⟩ := eq_of_realChars hreal
      exact hpoint (by simp)
    · simpa using not_mem_point hint

/-- A numeral is oversized when the integer numeral in it has too many digits. -/
theorem oversized_iff {d : Nat} : t.Oversized d ↔ (t.isImaginary = true ∨ t.isInteger = true) ∧
    t.magnitude.isInteger = true ∧ t.magnitude.toList.length = d ∧ digitLimit < d := by
  unfold Oversized
  by_cases himag : t.isImaginary = true
  · have hint : ¬ t.isInteger = true := by
      intro hint
      rw [not_imaginary_of_isInteger hint] at himag
      cases himag
    constructor
    · rintro ⟨hd, ⟨hint', -⟩ | ⟨-, hpoint⟩⟩
      · exact absurd hint' hint
      · obtain ⟨hmagnitude, hlength⟩ := (oversized_of_isImaginary_iff himag hd).1 hpoint
        exact ⟨.inl himag, hmagnitude, hlength, hd⟩
    · rintro ⟨-, hmagnitude, hlength, hd⟩
      exact ⟨hd, .inr ⟨himag, (oversized_of_isImaginary_iff himag hd).2 ⟨hmagnitude, hlength⟩⟩⟩
  · rw [magnitude_of_not_isImaginary (Bool.eq_false_iff.2 himag)]
    constructor
    · rintro ⟨hd, ⟨hint, hlength⟩ | ⟨himag', -⟩⟩
      · exact ⟨.inr hint, hint, hlength, hd⟩
      · exact absurd himag' himag
    · rintro ⟨-, hint, hlength, hd⟩
      exact ⟨hd, .inl ⟨hint, hlength⟩⟩

end Conversion

end Token

namespace Context

variable {ctx : Context} {t : Token}

/-- The number in a leaf is what the conversion of the numeral yields, and in an oversized numeral
stands an integer that is refused for the number of its digits alone. -/
def Opening.Converts (t : Token) : Opening → Prop
  | .leaf (.int n) => t.magnitude.number? Token.digitLimit = some (.int n)
  | .leaf (.real x) => t.magnitude.number? Token.digitLimit = some (.real x)
  | .leaf (.complex re im) => re = .int 0 ∧ t.magnitude.number? Token.digitLimit = some im
  | .excess d => t.magnitude.number? Token.digitLimit = Option.none ∧
      ∃ n, t.magnitude.number? d = some (.int n)
  | _ => True

/-- The opening of a numeral. -/
def Opening.isNumeric : Opening → Bool
  | .leaf (.int _) | .leaf (.real _) | .leaf (.complex _ _) | .excess _ => true
  | _ => false

/-- Without a number there is nothing to be converted. -/
theorem Opening.converts_of_not_isNumeric {o : Opening} (h : o.isNumeric = false) :
    o.Converts t := by
  cases o with
  | leaf l =>
    cases l with
    | int n => cases h
    | real x => cases h
    | complex re im => cases h
    | _ => trivial
  | excess d => cases h
  | _ => trivial

theorem opening_of_imaginary (ctx : Context) (h : t.isImaginary = true) :
    ctx.opening t = match t.excessDigits? with
      | some d => .excess d
      | Option.none => .leaf (.complex (.int 0) (Token.imaginaryValue t.toList.dropLast)) := by
  obtain ⟨htrue, hfalse, hinf⟩ := ne_of_numeral (.inl h)
  unfold opening
  cases t.excessDigits? <;> rw [if_neg htrue, if_neg hfalse, if_neg hinf, if_pos h]

theorem opening_of_integer (ctx : Context) (h : t.isInteger = true) :
    ctx.opening t = match t.excessDigits? with
      | some d => .excess d
      | Option.none => .leaf (.int (Token.natValue t.toList)) := by
  obtain ⟨htrue, hfalse, hinf⟩ := ne_of_numeral (.inr (.inl h))
  have himag := Bool.eq_false_iff.1 (Token.not_imaginary_of_isInteger h)
  unfold opening
  cases t.excessDigits? <;> rw [if_neg htrue, if_neg hfalse, if_neg hinf, if_neg himag, if_pos h]

theorem isNumeric_opening (ctx : Context) (himag : ¬ t.isImaginary = true)
    (hint : ¬ t.isInteger = true) (hreal : ¬ t.isReal = true) :
    (ctx.opening t).isNumeric = false := by
  unfold opening
  rw [if_neg himag, if_neg hint, if_neg hreal]
  simp only [apply_ite Opening.isNumeric]
  simp only [Opening.isNumeric, ite_self]

/-- Where the integer of a numeral has not too many digits, it is converted. -/
theorem number?_magnitude (hint : t.magnitude.isInteger = true) (hexcess : t.excessDigits? = none) :
    t.magnitude.number? Token.digitLimit =
      some (.int (Token.natValue t.magnitude.toList)) := by
  rw [Token.excessDigits?_eq] at hexcess
  have hlimit : ¬ Token.digitLimit < t.magnitude.toList.length := fun h => by
    rw [if_pos ⟨hint, h⟩] at hexcess
    cases hexcess
  rw [Token.number?_of_isInteger hint, if_neg hlimit]

theorem converts_excess {d : Nat} (hexcess : t.excessDigits? = some d) :
    (Opening.excess d).Converts t := by
  rw [Token.excessDigits?_eq] at hexcess
  split at hexcess
  · next h =>
    obtain rfl := Option.some.inj hexcess
    refine ⟨?_, Token.natValue t.magnitude.toList, ?_⟩
    · rw [Token.number?_of_isInteger h.1, if_pos h.2]
    · rw [Token.number?_of_isInteger h.1, if_neg (Nat.lt_irrefl _)]
  · cases hexcess

/-- Every conversion that reading a token makes is accepted, save for the digit limit. -/
theorem converts_opening (ctx : Context) (t : Token) : (ctx.opening t).Converts t := by
  by_cases himag : t.isImaginary = true
  · rw [opening_of_imaginary ctx himag]
    cases hexcess : t.excessDigits? with
    | some d => exact converts_excess hexcess
    | none =>
      refine ⟨rfl, ?_⟩
      obtain ⟨hint, hvalue⟩ | ⟨hreal, hvalue⟩ := Token.magnitude_of_isImaginary himag
      · rw [hvalue, number?_magnitude hint hexcess]
      · rw [hvalue, Token.number?_of_isReal hreal]
  have hmagnitude := Token.magnitude_of_not_isImaginary (Bool.eq_false_iff.2 himag)
  by_cases hint : t.isInteger = true
  · rw [opening_of_integer ctx hint]
    cases hexcess : t.excessDigits? with
    | some d => exact converts_excess hexcess
    | none =>
      change t.magnitude.number? Token.digitLimit = some (.int (Token.natValue t.toList))
      rw [number?_magnitude (hmagnitude.symm ▸ hint) hexcess, hmagnitude]
  by_cases hreal : t.isReal = true
  · rw [opening_of_isReal hreal]
    change t.magnitude.number? Token.digitLimit = some (.real (Token.realValue t.toList))
    rw [hmagnitude, Token.number?_of_isReal hreal]
  · exact Opening.converts_of_not_isNumeric (isNumeric_opening ctx himag hint hreal)

/-- Reading fails at a token for the number of its digits exactly if it is oversized. -/
theorem opening_eq_excess_iff {d : Nat} : ctx.opening t = .excess d ↔ t.Oversized d := by
  have hsize : t.excessDigits? = some d ↔ t.magnitude.isInteger = true ∧
      t.magnitude.toList.length = d ∧ Token.digitLimit < d := by
    rw [Token.excessDigits?_eq]
    split
    · next h =>
      rw [Option.some_inj]
      exact ⟨fun hd => ⟨h.1, hd, hd ▸ h.2⟩, fun hd => hd.2.1⟩
    · next h =>
      refine ⟨fun hnone => (by cases hnone), ?_⟩
      rintro ⟨hint, rfl, hlimit⟩
      exact absurd ⟨hint, hlimit⟩ h
  rw [Token.oversized_iff, ← hsize]
  by_cases himag : t.isImaginary = true
  · rw [opening_of_imaginary ctx himag]
    cases t.excessDigits? with
    | some e => simp [himag]
    | none => simp
  by_cases hint : t.isInteger = true
  · rw [opening_of_integer ctx hint]
    cases t.excessDigits? with
    | some e => simp [hint]
    | none => simp
  refine ⟨fun h => ?_, fun h => absurd h.1 (by simp [himag, hint])⟩
  by_cases hreal : t.isReal = true
  · rw [opening_of_isReal hreal] at h
    cases h
  · have hnumeric := isNumeric_opening ctx himag hint hreal
    rw [h] at hnumeric
    cases hnumeric

end Context

end TermReader
