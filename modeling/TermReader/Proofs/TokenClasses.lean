import TermReader.Proofs.Numerals

/-!
The classes of names and numerals are regular. Each is exactly the language of one regular
expression over ASCII characters, whatever other characters a token has. No token is of two
classes, except that the letter of the imaginary unit is a name too. So it does not matter in
which order the kinds of numerals are told apart where a primary phrase is due.
-/

namespace TermReader

namespace Token

section Patterns

open RegularExpression

/-- Any one of the characters from the first to the last. -/
def charRange (first last : Char) : RegularExpression Char :=
  ((List.range' first.toNat (last.toNat + 1 - first.toNat)).map fun n => char (Char.ofNat n)).sum

def letterPattern : RegularExpression Char := charRange 'A' 'Z' + charRange 'a' 'z' + char '_'

def digitPattern : RegularExpression Char := charRange '0' '9'

/-- Zero, or a digit that is not zero and any digits. -/
def integerPattern : RegularExpression Char :=
  char '0' + charRange '1' '9' * digitPattern.star

/-- A point and any digits. -/
def fractionPattern : RegularExpression Char := char '.' * digitPattern.star

end Patterns

/-- The kinds of numerals, in the order in which they are told apart. -/
inductive Numeral
  | imaginary
  | integer
  | real
  deriving DecidableEq

inductive Class
  | identifier
  | numeral (kind : Numeral)
  deriving DecidableEq

namespace Numeral

def holds : Numeral → Token → Bool
  | imaginary, t => t.isImaginary
  | integer, t => t.isInteger
  | real, t => t.isReal

def pattern : Numeral → RegularExpression Char
  | imaginary => (integerPattern * (fractionPattern + 1) + 1) * .char 'i'
  | integer => integerPattern
  | real => integerPattern * fractionPattern

/-- What a numeral is where a primary phrase is due. -/
def opening : Numeral → Token → Context.Opening
  | imaginary, t =>
    match t.excessDigits? with
    | some digits => .excess digits
    | none => .leaf (.complex (.int 0) (imaginaryValue t.toList.dropLast))
  | integer, t =>
    match t.excessDigits? with
    | some digits => .excess digits
    | none => .leaf (.int (natValue t.toList))
  | real, t => .leaf (.real (realValue t.toList))

end Numeral

namespace Class

def holds : Class → Token → Bool
  | identifier, t => t.isIdentifier
  | numeral kind, t => kind.holds t

def pattern : Class → RegularExpression Char
  | identifier => letterPattern * (letterPattern + digitPattern).star
  | numeral kind => kind.pattern

end Class

/-- The expression matches the single characters of a kind. -/
def MatchesKind (P : RegularExpression Char) (kind : Char → Bool) : Prop :=
  ∀ w, w ∈ P.matches' ↔ ∃ c, w = [c] ∧ kind c = true

namespace MatchesKind

variable {P Q : RegularExpression Char} {kind kind' : Char → Bool} {w : List Char}

theorem char (a : Char) : MatchesKind (.char a) (· == a) := by
  intro w
  rw [RegularExpression.matches'_char]
  constructor
  · rintro rfl
    exact ⟨a, rfl, beq_self_eq_true a⟩
  · rintro ⟨c, rfl, hc⟩
    rw [eq_of_beq hc]
    rfl

theorem congr (hP : MatchesKind P kind) (h : ∀ c, kind c = kind' c) : MatchesKind P kind' := by
  rwa [show kind' = kind from funext fun c => (h c).symm]

theorem add (hP : MatchesKind P kind) (hQ : MatchesKind Q kind') :
    MatchesKind (P + Q) fun c => kind c || kind' c := by
  intro w
  rw [RegularExpression.matches'_add, Language.mem_add, hP w, hQ w]
  simp only [Bool.or_eq_true, and_or_left, exists_or]

theorem sum {ι : Type} (l : List ι) (f : ι → Char) :
    MatchesKind (l.map fun i => .char (f i)).sum fun c => l.any fun i => c == f i := by
  induction l with
  | nil =>
    intro w
    simp only [List.map_nil, List.sum_nil, RegularExpression.matches'_zero, List.any_nil,
      Bool.false_eq_true, and_false, exists_false, iff_false]
    exact Set.notMem_empty w
  | cons i l ih => exact (char (f i)).add ih

theorem star (hP : MatchesKind P kind) : w ∈ P.star.matches' ↔ ∀ c ∈ w, kind c = true := by
  rw [RegularExpression.matches'_star, Language.mem_kstar]
  constructor
  · rintro ⟨words, rfl, hwords⟩ c hc
    obtain ⟨word, hword, hc⟩ := List.mem_flatten.1 hc
    obtain ⟨d, rfl, hd⟩ := (hP word).1 (hwords word hword)
    rwa [List.mem_singleton.1 hc]
  · intro h
    refine ⟨w.map fun c => [c], ?_, fun word hword => ?_⟩
    · rw [← List.flatMap_def, List.flatMap_singleton']
    obtain ⟨c, hc, rfl⟩ := List.mem_map.1 hword
    exact (hP [c]).2 ⟨c, rfl, h c hc⟩

/-- A character of one kind and any of another. -/
theorem mul_star (hP : MatchesKind P kind) (hQ : MatchesKind Q kind') :
    w ∈ (P * Q.star).matches' ↔
      ∃ c cs, w = c :: cs ∧ kind c = true ∧ ∀ d ∈ cs, kind' d = true := by
  rw [RegularExpression.matches'_mul, Language.mem_mul]
  constructor
  · rintro ⟨u, hu, v, hv, rfl⟩
    obtain ⟨c, rfl, hc⟩ := (hP u).1 hu
    exact ⟨c, v, rfl, hc, hQ.star.1 hv⟩
  · rintro ⟨c, cs, rfl, hc, hcs⟩
    exact ⟨[c], (hP [c]).2 ⟨c, rfl, hc⟩, cs, hQ.star.2 hcs, rfl⟩

/-- Below the surrogates every number is that of a character. -/
theorem charRange {first last : Char} (hlast : last.toNat < 0xd800) :
    MatchesKind (charRange first last) fun c => decide (first ≤ c) && decide (c ≤ last) := by
  have hkind (c : Char) :
      (List.range' first.toNat (last.toNat + 1 - first.toNat)).any (fun n => c == Char.ofNat n) =
        (decide (first ≤ c) && decide (c ≤ last)) := by
    rw [Bool.eq_iff_iff, List.any_eq_true, Bool.and_eq_true, decide_eq_true_eq, decide_eq_true_eq,
      Char.le_def, Char.le_def, UInt32.le_iff_toNat_le, UInt32.le_iff_toNat_le]
    simp only [Char.toNat_val, List.mem_range'_1, beq_iff_eq]
    constructor
    · rintro ⟨n, hn, rfl⟩
      have hnat : (Char.ofNat n).toNat = n := by
        rw [Char.ofNat, dif_pos (.inl (by omega))]
        rfl
      rw [hnat]
      omega
    · rintro ⟨hle, hge⟩
      exact ⟨c.toNat, by omega, c.ofNat_toNat.symm⟩
  intro w
  rw [Token.charRange, sum _ _ w]
  simp only [hkind]

theorem letter : MatchesKind letterPattern isLetter := by
  have hupper : MatchesKind (Token.charRange 'A' 'Z') Char.isUpper :=
    (charRange (by decide)).congr fun c => by simp [Char.isUpper, Char.le_def]
  have hlower : MatchesKind (Token.charRange 'a' 'z') Char.isLower :=
    (charRange (by decide)).congr fun c => by simp [Char.isLower, Char.le_def]
  exact (hupper.add hlower).add (char '_')

theorem digit : MatchesKind digitPattern Char.isDigit :=
  (charRange (by decide)).congr fun c => by simp [Char.isDigit, Char.le_def]

theorem leadingDigit : MatchesKind (Token.charRange '1' '9') isLeadingDigit := by
  refine (charRange (by decide)).congr fun c => ?_
  have hzero : c ≠ '0' ↔ c.toNat ≠ 48 := not_congr Char.toNat_inj.symm
  rw [Bool.eq_iff_iff]
  simp only [isLeadingDigit, Bool.and_eq_true, bne_iff_ne, hzero, Char.isDigit_iff_toNat,
    decide_eq_true_eq, Char.le_def, UInt32.le_iff_toNat_le, Char.toNat_val, Char.reduceToNat]
  omega

end MatchesKind

section Languages

variable {cs : List Char}

theorem mem_identifier_iff :
    cs ∈ Class.identifier.pattern.matches' ↔ identifierChars cs = true := by
  rw [Class.pattern, MatchesKind.letter.mul_star (MatchesKind.letter.add MatchesKind.digit)]
  cases cs with
  | nil => simp [identifierChars]
  | cons c cs => simp [identifierChars, List.all_eq_true]

theorem mem_integer_iff : cs ∈ integerPattern.matches' ↔ integerChars cs = true := by
  rw [integerPattern, RegularExpression.matches'_add, Language.mem_add, MatchesKind.char '0' cs,
    MatchesKind.leadingDigit.mul_star MatchesKind.digit]
  cases cs with
  | nil => simp [integerChars]
  | cons c cs => simp [integerChars, List.all_eq_true, and_comm]

theorem mem_fraction_iff : cs ∈ fractionPattern.matches' ↔
    ∃ fraction, cs = '.' :: fraction ∧ ∀ c ∈ fraction, c.isDigit = true := by
  rw [fractionPattern, (MatchesKind.char '.').mul_star MatchesKind.digit]
  simp

theorem mem_real_iff : cs ∈ Numeral.real.pattern.matches' ↔ realChars cs = true := by
  rw [Numeral.pattern, RegularExpression.matches'_mul, Language.mem_mul]
  constructor
  · rintro ⟨whole, hwhole, point, hpoint, rfl⟩
    obtain ⟨fraction, rfl, hfraction⟩ := mem_fraction_iff.1 hpoint
    exact realChars_append (mem_integer_iff.1 hwhole) hfraction
  · intro h
    obtain ⟨whole, fraction, rfl, hwhole, hfraction⟩ := eq_of_realChars h
    exact ⟨whole, mem_integer_iff.2 hwhole, _, mem_fraction_iff.2 ⟨fraction, rfl, hfraction⟩, rfl⟩

theorem mem_body_iff : cs ∈ (integerPattern * (fractionPattern + 1) + 1).matches' ↔
    cs = [] ∨ realChars cs = true ∨ integerChars cs = true := by
  have hreal : cs ∈ Numeral.real.pattern.matches' ↔ realChars cs = true := mem_real_iff
  rw [Numeral.pattern, RegularExpression.matches'_mul] at hreal
  rw [RegularExpression.matches'_add, RegularExpression.matches'_mul,
    RegularExpression.matches'_add, RegularExpression.matches'_epsilon, mul_add, mul_one,
    Language.mem_add, Language.mem_add, Language.mem_one, hreal, mem_integer_iff, or_comm]

theorem mem_imaginary_iff :
    cs ∈ Numeral.imaginary.pattern.matches' ↔ imaginaryChars cs = true := by
  rw [Numeral.pattern, RegularExpression.matches'_mul, Language.mem_mul, imaginaryChars_iff]
  constructor
  · rintro ⟨body, hbody, last, hlast, rfl⟩
    obtain ⟨c, rfl, hc⟩ := (MatchesKind.char 'i' last).1 hlast
    rw [eq_of_beq hc]
    exact ⟨body, rfl, mem_body_iff.1 hbody⟩
  · rintro ⟨body, rfl, hbody⟩
    exact ⟨body, mem_body_iff.2 hbody, ['i'], (MatchesKind.char 'i' _).2 ⟨'i', rfl, rfl⟩, rfl⟩

end Languages

namespace Class

/-- Every class is the language of its expression. -/
theorem holds_iff (k : Class) (t : Token) : k.holds t = true ↔ t.toList ∈ k.pattern.matches' := by
  cases k with
  | identifier => exact mem_identifier_iff.symm
  | numeral kind =>
    cases kind with
    | imaginary => exact mem_imaginary_iff.symm
    | integer => exact mem_integer_iff.symm
    | real => exact mem_real_iff.symm

end Class

section Overlap

variable {n m : Numeral} {k k' : Class} {t : Token}

/-- A token is a numeral of one kind at most. -/
theorem Numeral.eq_of_holds (hn : n.holds t = true) (hm : m.holds t = true) : n = m := by
  have hinteger (h : t.isInteger = true) : ¬ t.isImaginary = true :=
    Bool.eq_false_iff.1 (not_imaginary_of_isInteger h)
  have hreal (h : t.isReal = true) : ¬ t.isImaginary = true ∧ ¬ t.isInteger = true :=
    (not_imaginary_of_isReal h).imp Bool.eq_false_iff.1 Bool.eq_false_iff.1
  cases n with
  | imaginary =>
    cases m with
    | imaginary => rfl
    | integer => exact absurd hn (hinteger hm)
    | real => exact absurd hn (hreal hm).1
  | integer =>
    cases m with
    | imaginary => exact absurd hm (hinteger hn)
    | integer => rfl
    | real => exact absurd hn (hreal hm).2
  | real =>
    cases m with
    | imaginary => exact absurd hm (hreal hn).1
    | integer => exact absurd hm (hreal hn).2
    | real => rfl

/-- The letter of the imaginary unit is the only name that is a numeral. -/
theorem Numeral.eq_of_isIdentifier (ht : t.isIdentifier = true) (hn : n.holds t = true) :
    t = "i" ∧ n = imaginary := by
  by_cases hi : t = "i"
  · subst hi
    exact ⟨rfl, eq_of_holds hn (by decide : imaginary.holds "i" = true)⟩
  · obtain ⟨himag, hint, hreal⟩ := not_numeral_of_isIdentifier ht hi
    cases n with
    | imaginary => exact absurd hn (Bool.eq_false_iff.1 himag)
    | integer => exact absurd hn (Bool.eq_false_iff.1 hint)
    | real => exact absurd hn (Bool.eq_false_iff.1 hreal)

/-- Two classes have a token in common exactly if they are those of the names and of the imaginary
numerals, and then it is the letter of the imaginary unit. -/
theorem Class.both_hold_iff (hne : k ≠ k') : (k.holds t = true ∧ k'.holds t = true) ↔ t = "i" ∧
    (k = .identifier ∧ k' = .numeral .imaginary ∨ k = .numeral .imaginary ∧ k' = .identifier) := by
  constructor
  · rintro ⟨hk, hk'⟩
    cases k with
    | identifier =>
      cases k' with
      | identifier => exact absurd rfl hne
      | numeral n =>
        obtain ⟨hi, rfl⟩ := Numeral.eq_of_isIdentifier hk hk'
        exact ⟨hi, .inl ⟨rfl, rfl⟩⟩
    | numeral n =>
      cases k' with
      | identifier =>
        obtain ⟨hi, rfl⟩ := Numeral.eq_of_isIdentifier hk' hk
        exact ⟨hi, .inr ⟨rfl, rfl⟩⟩
      | numeral m => exact absurd (congrArg numeral (Numeral.eq_of_holds hk hk')) hne
  · rintro ⟨rfl, ⟨rfl, rfl⟩ | ⟨rfl, rfl⟩⟩
    · decide
    · decide

end Overlap

end Token

namespace Context

variable {ctx : Context} {t : Token}

/-- What a token is where a primary phrase is due, with the kinds of numerals told apart in the
given order. -/
def openingBy (ctx : Context) (order : List Token.Numeral) (t : Token) : Opening :=
  if t = "true" then .leaf (.truth true)
  else if t = "false" then .leaf (.truth false)
  else if t = infinityName then .leaf .infinity
  else
    match order.find? (·.holds t) with
    | some n => n.opening t
    | Option.none =>
      if ctx.isIrrational t then .leaf (.irrational t)
      else if ctx.isFunction t then .call
      else if t.isIdentifier then .leaf (.var t)
      else .ofSymbol t

theorem opening_of_holds {n : Token.Numeral} (h : n.holds t = true) :
    ctx.opening t = n.opening t := by
  cases n with
  | imaginary => exact opening_of_imaginary ctx h
  | integer => exact opening_of_integer ctx h
  | real => exact opening_of_isReal h

/-- The first kind of numerals in the order that a token is of is the only one. -/
theorem openingBy_eq {order : List Token.Numeral} (horder : ∀ n, n ∈ order) :
    ctx.openingBy order t = ctx.opening t := by
  unfold openingBy
  cases hfind : order.find? (·.holds t) with
  | some n =>
    have hn : n.holds t = true := by simpa using List.find?_some hfind
    have hnumeral : t.isImaginary = true ∨ t.isInteger = true ∨ t.isReal = true := by
      cases n with
      | imaginary => exact .inl hn
      | integer => exact .inr (.inl hn)
      | real => exact .inr (.inr hn)
    obtain ⟨htrue, hfalse, hinf⟩ := ne_of_numeral hnumeral
    rw [if_neg htrue, if_neg hfalse, if_neg hinf, opening_of_holds hn]
  | none =>
    have hnone (n : Token.Numeral) : ¬ n.holds t = true :=
      List.find?_eq_none.1 hfind n (horder n)
    have himag : ¬ t.isImaginary = true := hnone .imaginary
    have hint : ¬ t.isInteger = true := hnone .integer
    have hreal : ¬ t.isReal = true := hnone .real
    rw [opening, if_neg himag, if_neg hint, if_neg hreal]
    rfl

end Context

namespace Grammar

variable {σ τ : Type}

/-- Reads a primary phrase, with the kinds of numerals told apart in the given order. -/
def primaryBy (ctx : Context) (b : Builder σ τ) (order : List Token.Numeral) (c : Cursor) :
    Reading σ (τ × Cursor) :=
  if c.rest = [] then throw (c.reject .unexpectedEnd none)
  else opened ctx b (ctx.openingBy order c.lookahead) c

end Grammar

namespace Token

/-- The classes are regular languages of ASCII characters, and no two of them have a token in
common, save for the letter of the imaginary unit. So a primary phrase is read the same way in
whichever order the kinds of numerals are told apart. -/
theorem classes_exact :
    (∀ (k : Class) (t : Token), k.holds t = true ↔ t.toList ∈ k.pattern.matches') ∧
    (∀ (k k' : Class) (t : Token), k ≠ k' → ((k.holds t = true ∧ k'.holds t = true) ↔ t = "i" ∧
      (k = .identifier ∧ k' = .numeral .imaginary ∨
        k = .numeral .imaginary ∧ k' = .identifier))) ∧
    ∀ order : List Numeral, (∀ n, n ∈ order) →
      (∀ (ctx : Context) (t : Token), ctx.openingBy order t = ctx.opening t) ∧
      ∀ (σ τ : Type) (ctx : Context) (b : Builder σ τ) (c : Cursor),
        Grammar.primaryBy ctx b order c = (Grammar.phrase ctx b .primary c).bare := by
  refine ⟨Class.holds_iff, fun k k' t hne => Class.both_hold_iff hne, fun order horder =>
    ⟨fun ctx t => Context.openingBy_eq horder, fun σ τ ctx b c => ?_⟩⟩
  rw [Grammar.primaryBy, Grammar.bare_primary, Context.openingBy_eq horder]

/-- The letter of the imaginary unit is a name too, and it is read as a numeral also if integer
and real numerals are told apart first. -/
theorem classes_exact_unit :
    (∀ n : Numeral, n ∈ [.real, .integer, .imaginary]) ∧
      Class.identifier ≠ .numeral .imaginary ∧
      (Class.identifier.holds "i" = true ∧ (Class.numeral .imaginary).holds "i" = true) ∧
      Context.standard.openingBy [.real, .integer, .imaginary] "i" =
        .leaf (.complex (.int 0) (.int 1)) := by
  obtain ⟨-, hoverlap, horder⟩ := classes_exact
  have hall : ∀ n : Numeral, n ∈ [.real, .integer, .imaginary] := by
    intro n
    cases n <;> decide
  have hne : Class.identifier ≠ .numeral .imaginary := by decide
  refine ⟨hall, hne, (hoverlap _ _ _ hne).2 ⟨rfl, .inl ⟨rfl, rfl⟩⟩, ?_⟩
  rw [(horder _ hall).1]
  rfl

end Token

end TermReader
