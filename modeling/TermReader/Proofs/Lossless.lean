import TermReader.Proofs.Wrapping
import Mathlib.Data.List.Forall2

/-!
Splitting loses nothing and looks at one token at a time. The pieces of a token put together are
the token, and a token that falls apart falls into names and numerals, never into symbols. What
is left of a coefficient may be an unknown name, which falls apart when it is split again; after
that nothing changes any more.
-/

namespace TermReader.Token

section Lookup

/-- The first place from `i` on where the character is of another kind. The characters are looked
up one by one, and there is no such place when the word has no character at one of them. -/
def runEnd? (kind : Char → Bool) (cs : List Char) (i : Nat) : Option Nat :=
  match _h : cs[i]? with
  | none => none
  | some c => if kind c then runEnd? kind cs (i + 1) else some i
termination_by cs.length - i
decreasing_by
  have := (List.getElem?_eq_some_iff.1 _h).1
  omega

/-- The pieces of a token, found by looking its characters up by their places. -/
def pieces? (ctx : Context) (t : Token) : Option (List Token) :=
  if isUnknownName ctx t then some (t.toList.map fun c => String.ofList [c])
  else if 2 ≤ t.toList.length then do
    let first ← t.toList[0]?
    let last ← t.toList[t.toList.length - 1]?
    if first.isDigit && isLetter last then
      let n ← runEnd? Char.isDigit t.toList 0
      return [String.ofList (t.toList.take n), String.ofList (t.toList.drop n)]
    else return [t]
  else some [t]

/-- Splitting with every character looked up by its place. -/
def split? (ctx : Context) (tokens : List Token) : Option (List Token) :=
  (tokens.mapM (pieces? ctx)).map List.flatten

/-- A character of another kind further on stops the search, so no place beyond the word is
looked up. -/
theorem runEnd?_eq (kind : Char → Bool) (cs : List Char) (i : Nat)
    (h : ∃ c ∈ cs.drop i, kind c = false) :
    runEnd? kind cs i = some (i + ((cs.drop i).takeWhile kind).length) := by
  fun_induction runEnd? kind cs i with
  | case1 i hnone =>
    obtain ⟨c, hc, -⟩ := h
    rw [List.drop_eq_nil_of_le (List.getElem?_eq_none_iff.1 hnone)] at hc
    cases hc
  | case2 i c hsome hkind ih =>
    obtain ⟨hi, hget⟩ := List.getElem?_eq_some_iff.1 hsome
    have hdrop : cs.drop i = c :: cs.drop (i + 1) := by
      rw [List.drop_eq_getElem_cons hi, hget]
    obtain ⟨d, hd, hother⟩ := h
    have hmem : d ∈ cs.drop (i + 1) := by
      rw [hdrop] at hd
      refine (List.mem_cons.1 hd).resolve_left ?_
      rintro rfl
      rw [hkind] at hother
      cases hother
    rw [ih ⟨d, hmem, hother⟩, hdrop, List.takeWhile_cons_of_pos hkind, List.length_cons]
    congr 1
    omega
  | case3 i c hsome hkind =>
    obtain ⟨hi, hget⟩ := List.getElem?_eq_some_iff.1 hsome
    rw [List.drop_eq_getElem_cons hi, hget, List.takeWhile_cons_of_neg hkind]
    rfl

theorem isCoefficientWord_iff {cs : List Char} {first last : Char} (hfirst : cs[0]? = some first)
    (hlast : cs[cs.length - 1]? = some last) :
    isCoefficientWord cs = (first.isDigit && isLetter last) := by
  rw [← List.head?_eq_getElem?] at hfirst
  rw [← List.getLast?_eq_getElem?] at hlast
  rw [isCoefficientWord, hfirst, hlast]
  rfl

/-- No character is looked up beyond the token. -/
theorem pieces?_eq (ctx : Context) (t : Token) : pieces? ctx t = some (pieces ctx t) := by
  unfold pieces? pieces
  by_cases hname : isUnknownName ctx t = true
  · rw [if_pos hname, if_pos hname]
  rw [if_neg hname, if_neg hname]
  by_cases hlength : 2 ≤ t.toList.length
  · have hfirst := List.getElem?_eq_getElem (l := t.toList) (i := 0) (by omega)
    have hlast := List.getElem?_eq_getElem (l := t.toList) (i := t.toList.length - 1) (by omega)
    rw [if_pos hlength, isCoefficientWord_iff hfirst hlast, hfirst, hlast]
    simp only [Option.bind_eq_bind, Option.bind_some]
    split
    · next hword =>
      rw [← isCoefficientWord_iff hfirst hlast] at hword
      obtain ⟨-, a, ha, hletter⟩ := exists_of_isCoefficientWord hword
      have hstop : ∃ c ∈ t.toList.drop 0, c.isDigit = false :=
        ⟨a, (List.dropWhile_suffix _).mem ha, not_isDigit_of_isLetter hletter⟩
      have htake := @List.take_left _ (t.toList.takeWhile Char.isDigit)
        (t.toList.dropWhile Char.isDigit)
      have hdrop := @List.drop_left _ (t.toList.takeWhile Char.isDigit)
        (t.toList.dropWhile Char.isDigit)
      rw [List.takeWhile_append_dropWhile] at htake hdrop
      rw [runEnd?_eq _ _ _ hstop, List.drop_zero, Nat.zero_add, Option.bind_some, htake, hdrop]
      rfl
    · rfl
  · have hword : ¬ isCoefficientWord t.toList = true := fun hword => hlength (two_le_length hword)
    rw [if_neg hlength, if_neg hword]

theorem split?_eq (ctx : Context) (tokens : List Token) :
    split? ctx tokens = some (split ctx tokens) := by
  have hpieces : pieces? ctx = fun t => pure (pieces ctx t) := funext (pieces?_eq ctx)
  rw [split?, hpieces, List.mapM_pure, split, List.flatMap_def]
  rfl

end Lookup

/-- What splitting makes of one token. -/
structure FallsInto (ctx : Context) (t : Token) (ps : List Token) : Prop where
  characters : ps.flatMap String.toList = t.toList
  nonempty : t ≠ "" → ∀ p ∈ ps, p ≠ ""
  kept : isUnknownName ctx t = false → isCoefficientWord t.toList = false → ps = [t]
  letters : isUnknownName ctx t = true → ps = t.toList.map fun c => String.ofList [c]
  coefficient : isCoefficientWord t.toList = true → ∃ digits a rest,
    ps = [String.ofList digits, String.ofList (a :: rest)] ∧
      (∀ c ∈ digits, c.isDigit = true) ∧ a.isDigit = false
  changed : ps ≠ [t] → ∀ p ∈ ps, isMark p = false ∧ p ≠ endMark

section Pieces

variable {ctx : Context} {t p : Token}

/-- A name does not start with a digit. -/
theorem not_isUnknownName_of_isCoefficientWord (h : isCoefficientWord t.toList = true) :
    isUnknownName ctx t = false := by
  rw [Bool.eq_false_iff]
  intro hname
  rw [not_isCoefficientWord_of_isIdentifier (isIdentifier_of_isUnknownName hname)] at h
  cases h

theorem pieces_of_isCoefficientWord (h : isCoefficientWord t.toList = true) :
    pieces ctx t = [String.ofList (t.toList.takeWhile Char.isDigit),
      String.ofList (t.toList.dropWhile Char.isDigit)] := by
  unfold pieces
  rw [if_neg (Bool.eq_false_iff.1 (not_isUnknownName_of_isCoefficientWord h)), if_pos h]

/-- The pieces of a token put together are the token. -/
theorem flatMap_pieces (ctx : Context) (t : Token) :
    (pieces ctx t).flatMap String.toList = t.toList := by
  unfold pieces
  split
  · simp [List.flatMap_map, List.flatMap_singleton']
  split
  · simp
  · simp

/-- Symbols have no characters of names and numerals. -/
theorem not_isMark_of_isPlain (h : ∃ c ∈ p.toList, isPlain c = true) :
    isMark p = false ∧ p ≠ endMark := by
  obtain ⟨c, hc, hplain⟩ := h
  have hdelimiter := (not_blank_of_isPlain hplain).2
  constructor
  · rw [Bool.eq_false_iff]
    intro hmark
    unfold isMark at hmark
    split at hmark
    · next a hchars =>
      rw [hchars, List.mem_singleton] at hc
      rw [hc, hmark] at hdelimiter
      cases hdelimiter
    · next a b hchars =>
      obtain ⟨ha, hb⟩ := isDelimiter_of_isCompound hmark
      rw [hchars] at hc
      simp only [List.mem_cons, List.not_mem_nil, or_false] at hc
      rcases hc with rfl | rfl
      · rw [ha] at hdelimiter
        cases hdelimiter
      · rw [hb] at hdelimiter
        cases hdelimiter
    · cases hmark
  · rintro rfl
    obtain rfl : c = '§' := List.mem_singleton.1 hc
    revert hplain
    decide

theorem fallsInto_pieces (ctx : Context) (t : Token) : FallsInto ctx t (pieces ctx t) where
  characters := flatMap_pieces ctx t
  nonempty ht p hp := by
    rcases pieces_cases ctx t with hwhole | hplain
    · rw [hwhole, List.mem_singleton] at hp
      exact hp ▸ ht
    · obtain ⟨c, hc, -⟩ := hplain p hp
      rintro rfl
      cases hc
  kept hname hword := whole_of_not_coefficient hname hword
  letters hname := if_pos hname
  coefficient hword := by
    obtain ⟨-, a, ha, -⟩ := exists_of_isCoefficientWord hword
    obtain ⟨b, rest, hrest⟩ := List.exists_cons_of_ne_nil (List.ne_nil_of_mem ha)
    have hhead := List.head?_dropWhile_not Char.isDigit t.toList
    rw [hrest] at hhead
    refine ⟨t.toList.takeWhile Char.isDigit, b, rest, ?_, fun c hc => ?_, ?_⟩
    · rw [pieces_of_isCoefficientWord hword, hrest]
    · exact List.mem_takeWhile_imp hc
    · simpa using hhead
  changed hchanged p hp :=
    not_isMark_of_isPlain (((pieces_cases ctx t).resolve_left hchanged) p hp)

/-- The pieces of an unknown name are not split any further. -/
theorem whole_of_mem_letters (hname : isUnknownName ctx t = true) (hp : p ∈ pieces ctx t) :
    p.Whole ctx := by
  rw [(fallsInto_pieces ctx t).letters hname] at hp
  obtain ⟨c, -, rfl⟩ := List.mem_map.1 hp
  exact whole_of_length_one ctx String.length_ofList

/-- A piece of a coefficient is split again only when it is an unknown name. -/
theorem whole_of_mem_coefficient (hword : isCoefficientWord t.toList = true)
    (hp : p ∈ pieces ctx t) (hname : isUnknownName ctx p = false) : p.Whole ctx := by
  obtain ⟨digits, a, rest, hpieces, hdigits, ha⟩ := (fallsInto_pieces ctx t).coefficient hword
  rw [hpieces] at hp
  simp only [List.mem_cons, List.not_mem_nil, or_false] at hp
  rcases hp with rfl | rfl
  · refine whole_of_forall_not_isLetter fun c hc => ?_
    rw [String.toList_ofList] at hc
    exact not_isLetter_of_isDigit (hdigits c hc)
  · refine whole_of_not_coefficient hname ?_
    rw [String.toList_ofList, isCoefficientWord, List.head?_cons, Option.any_some, ha]
    rfl

/-- Splitting twice leaves nothing to be split. -/
theorem whole_of_mem_pieces {q : Token} (hp : p ∈ pieces ctx t) (hq : q ∈ pieces ctx p) :
    q.Whole ctx := by
  have hwhole (h : p.Whole ctx) : q.Whole ctx := by
    rw [show pieces ctx p = [p] from h, List.mem_singleton] at hq
    exact hq ▸ h
  by_cases hagain : isUnknownName ctx p = true
  · exact whole_of_mem_letters hagain hq
  rw [Bool.not_eq_true] at hagain
  by_cases hname : isUnknownName ctx t = true
  · exact hwhole (whole_of_mem_letters hname hp)
  by_cases hword : isCoefficientWord t.toList = true
  · exact hwhole (whole_of_mem_coefficient hword hp hagain)
  · rw [Bool.not_eq_true] at hname hword
    rw [(fallsInto_pieces ctx t).kept hname hword, List.mem_singleton] at hp
    subst hp
    exact hwhole (whole_of_not_coefficient hname hword)

end Pieces

/-- Splitting loses nothing. It finds every character that it looks up, every token falls by
itself into pieces that are the token when they are put together, and only an unknown name or a
coefficient is changed. When tokens have been split twice, splitting them again changes nothing. -/
theorem split_exact (ctx : Context) (tokens : List Token) :
    split? ctx tokens = some (split ctx tokens) ∧
      (∃ parts, split ctx tokens = parts.flatten ∧
        List.Forall₂ (FallsInto ctx) tokens parts) ∧
      split ctx (split ctx (split ctx tokens)) = split ctx (split ctx tokens) := by
  refine ⟨split?_eq ctx tokens, ⟨tokens.map (pieces ctx), List.flatMap_def, ?_⟩, ?_⟩
  · rw [List.forall₂_map_right_iff, List.forall₂_same]
    exact fun t _ => fallsInto_pieces ctx t
  · refine split_of_whole fun q hq => ?_
    obtain ⟨p, hp, hq⟩ := List.mem_flatMap.1 hq
    obtain ⟨t, -, hp⟩ := List.mem_flatMap.1 hp
    exact whole_of_mem_pieces hp hq

/-- Once is not enough: an unknown name behind the digits is split only when it is met again. -/
example : split .standard ["3xy"] = ["3", "xy"] ∧
    split .standard ["3", "xy"] = ["3", "x", "y"] := by
  decide

end TermReader.Token
