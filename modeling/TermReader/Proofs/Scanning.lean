import TermReader.Proofs.Spelling

/-!
Tokens with single spaces between them are scanned back one by one. A word runs up
to the space behind it, and an operator of one or two delimiters ends by itself.
-/

namespace TermReader.Token

/-- A token is scanned back before a space and at the end of an expression. -/
def Scannable (t : Token) : Prop :=
  scanFrom [] t.toList = [t.toList] ∧
    ∀ rest, scanFrom [] (t.toList ++ ' ' :: rest) = t.toList :: scanFrom [] rest

/-- One delimiter, or two that form an operator. -/
def isMark (t : Token) : Bool :=
  match t.toList with
  | [a] => isDelimiter a
  | [a, b] => isCompound a b
  | _ => false

/-- The characters that join the pending word: all but blanks and delimiters. -/
def joinsWord (c : Char) : Bool := !isBlank c && !isDelimiter c

theorem joinsWord_of_isPlain {c : Char} (h : isPlain c = true) : joinsWord c = true := by
  obtain ⟨hblank, hdelimiter⟩ := not_blank_of_isPlain h
  simp [joinsWord, hblank, hdelimiter]

theorem scanFrom_blank {c : Char} (hc : isBlank c = true) (pending rest : List Char) :
    scanFrom pending (c :: rest) = flush pending ++ scanFrom [] rest := by
  cases rest with
  | nil => simp [scanFrom, hc, flush]
  | cons => simp [scanFrom, hc]

theorem scanFrom_joinsWord {c : Char} (hc : joinsWord c = true) (pending rest : List Char) :
    scanFrom pending (c :: rest) = scanFrom (c :: pending) rest := by
  obtain ⟨hblank, hdelimiter⟩ : isBlank c = false ∧ isDelimiter c = false := by
    simpa [joinsWord] using hc
  cases rest <;> simp [scanFrom, hblank, hdelimiter]

theorem scanFrom_word {w : List Char} (hw : ∀ c ∈ w, joinsWord c = true)
    (pending rest : List Char) :
    scanFrom pending (w ++ rest) = scanFrom (w.reverse ++ pending) rest := by
  induction w generalizing pending with
  | nil => rfl
  | cons c w ih =>
    obtain ⟨hc, hw⟩ := List.forall_mem_cons.1 hw
    rw [List.cons_append, scanFrom_joinsWord hc, ih hw, List.reverse_cons, List.append_assoc,
      List.singleton_append]

theorem flush_reverse {w : List Char} (hne : w ≠ []) : flush w.reverse = [w] := by
  simp [flush, hne]

theorem scannable_of_joinsWord {t : Token} (hne : t.toList ≠ [])
    (h : ∀ c ∈ t.toList, joinsWord c = true) : t.Scannable := by
  constructor
  · have hend := scanFrom_word h [] []
    rw [List.append_nil, List.append_nil] at hend
    exact hend.trans (flush_reverse hne)
  · intro rest
    rw [scanFrom_word h, List.append_nil, scanFrom_blank rfl, flush_reverse hne,
      List.singleton_append]

theorem IsWord.scannable {t : Token} (h : t.IsWord) : t.Scannable :=
  scannable_of_joinsWord h.1 fun c hc => joinsWord_of_isPlain (h.2 c hc)

/-- The delimiters are no blanks, and with a blank they form no operator. -/
theorem of_isDelimiter {a : Char} (h : isDelimiter a = true) :
    isBlank a = false ∧ isCompound a ' ' = false := by
  have hall : delimiters.all (fun d => !isBlank d && !isCompound d ' ') = true := by rfl
  have ha := List.all_eq_true.1 hall a (List.contains_iff_mem.1 h)
  simpa using ha

theorem isDelimiter_of_isCompound {a b : Char} (h : isCompound a b = true) :
    isDelimiter a = true ∧ isDelimiter b = true := by
  have hall : ∀ p ∈ [('&', '&'), ('|', '|'), ('>', '='), ('<', '='), ('=', '='), ('!', '='),
      ('@', '@')], isDelimiter p.1 = true ∧ isDelimiter p.2 = true := by decide
  exact hall (a, b) (List.contains_iff_mem.1 h)

theorem scannable_of_isMark {t : Token} (h : t.isMark = true) : t.Scannable := by
  unfold isMark at h
  unfold Scannable
  split at h
  · next a hchars =>
    obtain ⟨hblank, hcompound⟩ := of_isDelimiter h
    rw [hchars]
    constructor
    · simp [scanFrom, hblank, h, flush]
    · intro rest
      have hstep : scanFrom [] (a :: ' ' :: rest) = [a] :: scanFrom [] (' ' :: rest) := by
        simp [scanFrom, hblank, h, hcompound, flush]
      exact hstep.trans (congrArg _ (scanFrom_blank rfl [] rest))
  · next a b hchars =>
    have hdelimiter := (isDelimiter_of_isCompound h).1
    obtain ⟨hblank, _⟩ := of_isDelimiter hdelimiter
    rw [hchars]
    have hstep : ∀ rest, scanFrom [] (a :: b :: rest) = [a, b] :: scanFrom [] rest := by
      intro rest
      simp [scanFrom, hblank, hdelimiter, h, flush]
    exact ⟨hstep [], fun rest => (hstep _).trans (congrArg _ (scanFrom_blank rfl [] rest))⟩
  · cases h

/-- Scanning undoes writing tokens with spaces between them. -/
theorem words_intercalate {ts : List Token} (h : ∀ t ∈ ts, t.Scannable) :
    words (" ".intercalate ts) = ts := by
  induction ts with
  | nil => rfl
  | cons t ts ih =>
    obtain ⟨⟨hend, hspace⟩, hts⟩ := List.forall_mem_cons.1 h
    unfold words at ih ⊢
    cases ts with
    | nil =>
      rw [String.intercalate_singleton, hend, List.map_singleton, String.ofList_toList]
    | cons u ts =>
      have hchars : (" ".intercalate (t :: u :: ts)).toList =
          t.toList ++ ' ' :: (" ".intercalate (u :: ts)).toList := by
        rw [String.intercalate_cons_cons, String.toList_append, String.toList_append,
          List.append_assoc]
        rfl
      rw [hchars, hspace, List.map_cons, String.ofList_toList, ih hts]

end TermReader.Token
