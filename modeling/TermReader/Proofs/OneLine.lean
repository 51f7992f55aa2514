import TermReader.Log.Record
import Mathlib

/-!
Texts on one line. Quoting escapes line feeds, and so does JSON, so a quoted text and any data in
JSON stay on one line whatever they hold. A log record in JSON is therefore one line. In plain
text it is one when its source and its message are, and it carries no problem.
-/

namespace TermReader

namespace Text

/-- A text without line feeds. -/
def IsLine (text : String) : Prop := '\n' ∉ text.toList

instance (text : String) : Decidable (IsLine text) := inferInstanceAs (Decidable (_ ∉ _))

section Joining

variable {a b sep : String} {parts : List String}

@[simp]
theorem isLine_append : IsLine (a ++ b) ↔ IsLine a ∧ IsLine b := by
  simp [IsLine]

@[simp]
theorem isLine_ofList {cs : List Char} : IsLine (String.ofList cs) ↔ '\n' ∉ cs := by
  simp [IsLine]

theorem isLine_intercalate (hsep : IsLine sep) (h : ∀ part ∈ parts, IsLine part) :
    IsLine (sep.intercalate parts) := by
  induction parts with
  | nil => exact List.not_mem_nil
  | cons part parts ih =>
    obtain ⟨hpart, hparts⟩ := List.forall_mem_cons.1 h
    cases parts with
    | nil => rwa [String.intercalate_singleton]
    | cons next parts =>
      rw [String.intercalate_cons_cons, isLine_append, isLine_append]
      exact ⟨⟨hpart, hsep⟩, ih hparts⟩

theorem isLine_bracketed (h : ∀ part ∈ parts, IsLine part) : IsLine (bracketed parts) := by
  simp only [bracketed, isLine_append]
  exact ⟨⟨by decide, isLine_intercalate (by decide) h⟩, by decide⟩

theorem isLine_braced (h : ∀ part ∈ parts, IsLine part) : IsLine (braced parts) := by
  simp only [braced, isLine_append]
  exact ⟨⟨by decide, isLine_intercalate (by decide) h⟩, by decide⟩

theorem isLine_signed (negative : Bool) (h : IsLine a) : IsLine (signed negative a) := by
  unfold signed
  split
  · exact isLine_append.2 ⟨by decide, h⟩
  · exact h

end Joining

section Numbers

theorem digitChar_ne : ∀ n < 16, Nat.digitChar n ≠ '\n' := by
  decide

theorem notMem_toDigits {base : Nat} (hbase : 1 < base) (hle : base ≤ 16) (n : Nat) :
    '\n' ∉ Nat.toDigits base n := by
  induction n using Nat.strong_induction_on with
  | h n ih =>
  by_cases hlt : n < base
  · rw [Nat.toDigits_of_lt_base hlt, List.mem_singleton]
    exact (digitChar_ne n (hlt.trans_le hle)).symm
  · rw [Nat.toDigits_of_base_le hbase (Nat.le_of_not_lt hlt), List.mem_append, List.mem_singleton]
    rintro (h | h)
    · exact ih (n / base) (Nat.div_lt_self (by omega) hbase) h
    · exact digitChar_ne _ ((Nat.mod_lt n (by omega)).trans_le hle) h.symm

theorem isLine_repr (n : Nat) : IsLine n.repr := by
  rw [← Nat.toString_eq_repr, Nat.toString_eq_ofList_toDigits, isLine_ofList]
  exact notMem_toDigits (by decide) (by decide) n

theorem isLine_toString (n : Int) : IsLine (toString n) := by
  cases n with
  | ofNat n => exact isLine_repr n
  | negSucc n => exact isLine_append.2 ⟨by decide, isLine_repr (n + 1)⟩

theorem notMem_hexDigits (width value : Nat) : '\n' ∉ hexDigits width value := by
  have hdigits := notMem_toDigits (by decide) (le_refl 16) value
  simp [hexDigits, hdigits]

end Numbers

section Escapes

theorem notMem_quotedChar {quote : Char} (hquote : quote ≠ '\n') (c : Char) :
    '\n' ∉ quotedChar quote c := by
  fun_cases quotedChar quote c with
  | case1 hescaped =>
    rcases hescaped with rfl | rfl
    · simp [hquote.symm]
    · decide
  | case2 | case3 | case4 => decide
  | case5 _ hfeed => simpa using Ne.symm hfeed
  | case6 =>
    unfold numericEscape
    dsimp only
    split_ifs <;> simp [notMem_hexDigits]

/-- Quoting leaves no line feed in a text. -/
theorem isLine_quoted (text : String) : IsLine (quoted text) := by
  have hquote : quoteFor text.toList ≠ '\n' := by
    unfold quoteFor
    split <;> decide
  simp only [quoted, quotedChars, isLine_ofList, List.mem_append, List.mem_cons, List.mem_flatMap,
    List.not_mem_nil, or_false, hquote.symm, false_or]
  rintro ⟨c, -, hc⟩
  exact notMem_quotedChar hquote c hc

theorem isLine_quotedList (items : List String) : IsLine (quotedList items) :=
  isLine_bracketed fun part hpart => by
    obtain ⟨item, -, rfl⟩ := List.mem_map.1 hpart
    exact isLine_quoted item

theorem notMem_jsonChar (c : Char) : '\n' ∉ jsonChar c := by
  fun_cases jsonChar c with
  | case1 | case2 | case3 | case4 | case5 | case6 | case7 => decide
  | case8 => simp [notMem_hexDigits]
  | case9 _ _ hfeed => simpa using Ne.symm hfeed

/-- Nor does JSON. -/
theorem isLine_jsonText (text : String) : IsLine (jsonText text) := by
  simp only [jsonText, isLine_ofList, List.cons_append, List.mem_cons, List.mem_append,
    List.mem_flatMap, List.not_mem_nil, or_false]
  rintro (h | ⟨c, -, hc⟩ | h)
  · cases h
  · exact notMem_jsonChar c hc
  · cases h

end Escapes

end Text

open Text

theorem Binary64.isLine_render (x : Binary64) : IsLine x.render := by
  have hdigits (n : Nat) : '\n' ∉ Decimal.digitChars n :=
    notMem_toDigits (by decide) (by decide) n
  have htake (n k : Nat) : '\n' ∉ (Decimal.digitChars n).take k :=
    fun h => hdigits n (List.mem_of_mem_take h)
  have hdrop (n k : Nat) : '\n' ∉ (Decimal.digitChars n).drop k :=
    fun h => hdigits n (List.mem_of_mem_drop h)
  have htail (n : Nat) : '\n' ∉ (Decimal.digitChars n).tail :=
    fun h => hdigits n (List.mem_of_mem_tail h)
  fun_cases render x with
  | case1 => decide
  | case2 => decide
  | case3 significand exponent hne d digits leading chars =>
    rw [isLine_ofList]
    subst chars digits
    dsimp only
    split_ifs <;> simp [hdigits, htake, hdrop, htail]

namespace Value

mutual

/-- Data in JSON is one line. -/
theorem isLine_json : ∀ v : Value, IsLine v.json
  | null => by rw [json]; decide
  | truth value => by cases value <;> rw [json] <;> decide
  | int value => by rw [json]; exact isLine_toString value
  | real negative magnitude => by
    rw [json]
    refine isLine_signed negative ?_
    split
    · decide
    · exact magnitude.isLine_render
  | text value => by rw [json]; exact isLine_jsonText value
  | scalar spelling => by rw [json]; exact isLine_jsonText spelling
  | list items => by rw [json]; exact isLine_bracketed (isLine_jsonItems items)
  | object fields => by rw [json]; exact isLine_braced (isLine_jsonFields fields)

theorem isLine_jsonItems : ∀ items : List Value, ∀ part ∈ jsonItems items, IsLine part
  | [] => by simp [jsonItems]
  | v :: vs => by
    rw [jsonItems]
    exact List.forall_mem_cons.2 ⟨isLine_json v, isLine_jsonItems vs⟩

theorem isLine_jsonFields :
    ∀ fields : List (String × Value), ∀ part ∈ jsonFields fields, IsLine part
  | [] => by simp [jsonFields]
  | (name, v) :: rest => by
    rw [jsonFields]
    refine List.forall_mem_cons.2 ⟨?_, isLine_jsonFields rest⟩
    rw [isLine_append, isLine_append]
    exact ⟨⟨isLine_jsonText name, by decide⟩, isLine_json v⟩

end

end Value

end TermReader
