import TermReader.Proofs.Wrapping

/-!
Scanning takes the longest lexeme at every place. A lexeme is a delimiter, an operator of two
delimiters, or a word, and what is scanned is a row of lexemes with nothing but blanks between
them. So blanks are lost and nothing else is, and they do no more than separate: what stands
behind a blank is scanned as if it stood alone, and every token is scanned back by itself.
-/

namespace TermReader.Token

/-- What a token may consist of. -/
def IsLexeme (w : List Char) : Prop :=
  isMark (String.ofList w) = true ∨ w ≠ [] ∧ ∀ c ∈ w, joinsWord c = true

/-- The lexeme that begins with `a`, which is no blank, and the characters behind it. An operator
of two delimiters goes before a single one, and a word is as long as it can be. -/
def lexeme (a : Char) : List Char → List Char × List Char
  | [] => ([a], [])
  | b :: rest =>
    if isCompound a b then ([a, b], rest)
    else if isDelimiter a then ([a], b :: rest)
    else (a :: (b :: rest).takeWhile joinsWord, (b :: rest).dropWhile joinsWord)

theorem lexeme_append (a : Char) (cs : List Char) :
    (lexeme a cs).1 ++ (lexeme a cs).2 = a :: cs := by
  fun_cases lexeme a cs with
  | case1 => rfl
  | case2 b rest => rfl
  | case3 b rest => rfl
  | case4 b rest => rw [List.cons_append, List.takeWhile_append_dropWhile]

theorem length_lexeme_le (a : Char) (cs : List Char) : (lexeme a cs).2.length ≤ cs.length := by
  fun_cases lexeme a cs with
  | case1 => exact le_rfl
  | case2 b rest => simp
  | case3 b rest => exact le_rfl
  | case4 b rest => exact (List.dropWhile_suffix _).length_le

/-- Skips blanks and takes a lexeme, again and again. -/
def longestMatch (cs : List Char) : List (List Char) :=
  match _h : cs.dropWhile isBlank with
  | [] => []
  | a :: rest => (lexeme a rest).1 :: longestMatch (lexeme a rest).2
termination_by cs.length
decreasing_by
  have hskipped := (List.dropWhile_suffix (l := cs) isBlank).length_le
  have hrest := length_lexeme_le a rest
  rw [_h, List.length_cons] at hskipped
  omega

section Lexemes

variable {a : Char} {cs w : List Char}

theorem not_isBlank_of_dropWhile {rest : List Char} (h : cs.dropWhile isBlank = a :: rest) :
    isBlank a = false := by
  have hhead := List.head?_dropWhile_not isBlank cs
  simpa [h] using hhead

/-- What is neither blank nor delimiter begins a word. -/
theorem joinsWord_of_not (hblank : isBlank a = false) (hdelimiter : ¬ isDelimiter a = true) :
    joinsWord a = true := by
  simp [joinsWord, hblank, hdelimiter]

theorem not_isDelimiter_of_joinsWord (ha : joinsWord a = true) : isDelimiter a = false := by
  simp only [joinsWord, Bool.and_eq_true, Bool.not_eq_true'] at ha
  exact ha.2

theorem lexeme_of_joinsWord (ha : joinsWord a = true) (cs : List Char) :
    lexeme a cs = (a :: cs.takeWhile joinsWord, cs.dropWhile joinsWord) := by
  have hdelimiter := not_isDelimiter_of_joinsWord ha
  have hcompound (b : Char) : ¬ isCompound a b = true := fun h => by
    rw [(isDelimiter_of_isCompound h).1] at hdelimiter
    cases hdelimiter
  cases cs with
  | nil => rfl
  | cons b rest => rw [lexeme, if_neg (hcompound b), if_neg (Bool.eq_false_iff.1 hdelimiter)]

theorem isLexeme_lexeme (ha : isBlank a = false) (cs : List Char) : IsLexeme (lexeme a cs).1 := by
  have hsingle (h : isDelimiter a = true) : IsLexeme [a] := .inl (by simpa [isMark] using h)
  fun_cases lexeme a cs with
  | case1 =>
    by_cases hdelimiter : isDelimiter a = true
    · exact hsingle hdelimiter
    · exact .inr ⟨List.cons_ne_nil _ _, by simpa using joinsWord_of_not ha hdelimiter⟩
  | case2 b rest hcompound => exact .inl (by simpa [isMark] using hcompound)
  | case3 b rest _ hdelimiter => exact hsingle hdelimiter
  | case4 b rest _ hdelimiter =>
    refine .inr ⟨List.cons_ne_nil _ _, List.forall_mem_cons.2 ⟨joinsWord_of_not ha hdelimiter, ?_⟩⟩
    exact fun c hc => List.mem_takeWhile_imp hc

theorem IsLexeme.ne_nil (h : IsLexeme w) : w ≠ [] := by
  rcases h with hmark | ⟨hne, -⟩
  · rintro rfl
    cases hmark
  · exact hne

/-- No lexeme that begins at the same place is longer. -/
theorem IsLexeme.length_le (h : IsLexeme w) (hfront : w <+: a :: cs) (ha : isBlank a = false) :
    w.length ≤ (lexeme a cs).1.length := by
  obtain ⟨rest, heq⟩ := hfront
  rcases h with hmark | ⟨hne, hword⟩
  · rw [isMark, String.toList_ofList] at hmark
    split at hmark
    · exact List.length_pos_iff.2 (isLexeme_lexeme ha cs).ne_nil
    · next b c =>
      rw [List.cons_append, List.singleton_append, List.cons.injEq] at heq
      obtain ⟨rfl, rfl⟩ := heq
      rw [lexeme, if_pos hmark]
    · cases hmark
  · obtain ⟨b, w, rfl⟩ := List.exists_cons_of_ne_nil hne
    rw [List.cons_append, List.cons.injEq] at heq
    obtain ⟨rfl, rfl⟩ := heq
    obtain ⟨hb, hw⟩ := List.forall_mem_cons.1 hword
    rw [lexeme_of_joinsWord hb, List.takeWhile_append_of_pos hw, List.length_cons,
      List.length_cons, List.length_append]
    omega

/-- No blank stands in a lexeme. -/
theorem IsLexeme.not_isBlank (h : IsLexeme w) : ∀ c ∈ w, isBlank c = false := by
  rcases h with hmark | ⟨-, hword⟩
  · rw [isMark, String.toList_ofList] at hmark
    split at hmark
    · next b => simpa using (of_isDelimiter hmark).1
    · next b c =>
      obtain ⟨hb, hc⟩ := isDelimiter_of_isCompound hmark
      simpa using And.intro (of_isDelimiter hb).1 (of_isDelimiter hc).1
    · cases hmark
  · intro c hc
    have hjoins := hword c hc
    simp only [joinsWord, Bool.and_eq_true, Bool.not_eq_true'] at hjoins
    exact hjoins.1

theorem IsLexeme.scannable (h : IsLexeme w) : Scannable (String.ofList w) := by
  rcases h with hmark | ⟨hne, hword⟩
  · exact scannable_of_isMark hmark
  · exact scannable_of_joinsWord (by simpa using hne) (by simpa using hword)

/-- Everything that the reference takes is a lexeme. -/
theorem isLexeme_of_mem_longestMatch (hw : w ∈ longestMatch cs) : IsLexeme w := by
  fun_induction longestMatch cs with
  | case1 cs h => cases hw
  | case2 cs a rest h ih =>
    rcases List.mem_cons.1 hw with rfl | hw
    · exact isLexeme_lexeme (not_isBlank_of_dropWhile h) rest
    · exact ih hw

end Lexemes

section Scanning

variable {a : Char} {pending cs : List Char}

theorem scanFrom_dropWhile (cs : List Char) :
    scanFrom [] (cs.dropWhile isBlank) = scanFrom [] cs := by
  induction cs with
  | nil => rfl
  | cons c cs ih =>
    by_cases hc : isBlank c = true
    · rw [List.dropWhile_cons_of_pos hc, ih, scanFrom_blank hc]
      rfl
    · rw [List.dropWhile_cons_of_neg hc]

/-- Scanning takes the lexeme at the front and goes on behind it. -/
theorem scanFrom_lexeme (ha : isBlank a = false) (cs : List Char) :
    scanFrom [] (a :: cs) = (lexeme a cs).1 :: scanFrom [] (lexeme a cs).2 := by
  by_cases hdelimiter : isDelimiter a = true
  · cases cs with
    | nil => exact scanFrom_delimiter hdelimiter [] (by simp)
    | cons b rest =>
      by_cases hcompound : isCompound a b = true
      · rw [lexeme, if_pos hcompound]
        simp [scanFrom, ha, hdelimiter, hcompound, flush]
      · rw [lexeme, if_neg hcompound, if_pos hdelimiter]
        exact scanFrom_delimiter hdelimiter [] (by simpa using hcompound)
  · have hword : ∀ c ∈ a :: cs.takeWhile joinsWord, joinsWord c = true :=
      List.forall_mem_cons.2 ⟨joinsWord_of_not ha hdelimiter, fun c hc => List.mem_takeWhile_imp hc⟩
    have hwhole := scanFrom_word hword [] (cs.dropWhile joinsWord)
    rw [List.cons_append, List.takeWhile_append_dropWhile, List.append_nil] at hwhole
    rw [lexeme_of_joinsWord (joinsWord_of_not ha hdelimiter), hwhole]
    have hflush := flush_reverse (List.cons_ne_nil a (cs.takeWhile joinsWord))
    cases hrest : cs.dropWhile joinsWord with
    | nil => exact hflush
    | cons d ds =>
      have hd : joinsWord d = false := by
        have hhead := List.head?_dropWhile_not joinsWord cs
        simpa [hrest] using hhead
      rw [scanFrom_flush hd, hflush, List.singleton_append]

theorem scanFrom_eq_longestMatch (cs : List Char) : scanFrom [] cs = longestMatch cs := by
  fun_induction longestMatch cs with
  | case1 cs h =>
    rw [← scanFrom_dropWhile, h]
    rfl
  | case2 cs a rest h ih =>
    rw [← scanFrom_dropWhile, h, scanFrom_lexeme (not_isBlank_of_dropWhile h), ih]

/-- Scanning loses blanks and nothing else. -/
theorem flatten_longestMatch (cs : List Char) :
    (longestMatch cs).flatten = cs.filter (!isBlank ·) := by
  have hskip (cs : List Char) : (cs.dropWhile isBlank).filter (!isBlank ·) =
      cs.filter (!isBlank ·) := by
    induction cs with
    | nil => rfl
    | cons c cs ih =>
      by_cases hc : isBlank c = true
      · rw [List.dropWhile_cons_of_pos hc, ih, List.filter_cons_of_neg (by simpa using hc)]
      · rw [List.dropWhile_cons_of_neg hc]
  fun_induction longestMatch cs with
  | case1 cs h =>
    rw [← hskip, h]
    rfl
  | case2 cs a rest h ih =>
    have hlexeme : (lexeme a rest).1.filter (!isBlank ·) = (lexeme a rest).1 :=
      List.filter_eq_self.2 fun c hc => by
        simpa using (isLexeme_lexeme (not_isBlank_of_dropWhile h) rest).not_isBlank c hc
    rw [List.flatten_cons, ih, ← hskip cs, h, ← lexeme_append, List.filter_append, hlexeme]

/-- Blanks separate what is in front of them from what is behind them. -/
theorem scanFrom_append_blanks {w : List Char} (hne : w ≠ [])
    (hblank : ∀ c ∈ w, isBlank c = true) (pending cs ds : List Char) :
    scanFrom pending (cs ++ (w ++ ds)) = scanFrom pending cs ++ scanFrom [] ds := by
  have hskip : scanFrom [] (w ++ ds) = scanFrom [] ds := by
    rw [← scanFrom_dropWhile, List.dropWhile_append_of_pos hblank, scanFrom_dropWhile]
  obtain ⟨c, w, rfl⟩ := List.exists_cons_of_ne_nil hne
  have hc : isBlank c = true := hblank c List.mem_cons_self
  have hjoin (a : Char) : isCompound a c = false := by
    rw [Bool.eq_false_iff]
    intro h
    rw [(of_isDelimiter (isDelimiter_of_isCompound h).2).1] at hc
    cases hc
  have hseparates : joinsWord c = false := by simp [joinsWord, hc]
  rw [List.cons_append, scanFrom_append hseparates pending (fun a _ => hjoin a), ← hskip,
    List.cons_append]

end Scanning

/-- The words of an expression are lexemes. -/
theorem exists_lexeme_of_mem_words {source : String} {t : Token} (ht : t ∈ words source) :
    ∃ w, IsLexeme w ∧ t = String.ofList w := by
  obtain ⟨w, hw, rfl⟩ := List.mem_map.1 ht
  rw [scanFrom_eq_longestMatch] at hw
  exact ⟨w, isLexeme_of_mem_longestMatch hw, rfl⟩

theorem dropLast_scan (source : String) : (scan source).dropLast = words source :=
  List.dropLast_concat

/-- Scanning takes the longest lexeme at every place. So there are no blanks in tokens and no
empty tokens, and what the tokens consist of is the expression without its blanks. -/
theorem scan_longestMatch (source : String) :
    scan source = (longestMatch source.toList).map String.ofList ++ [endMark] ∧
      (∀ t ∈ (scan source).dropLast, t ≠ "" ∧ ∀ c ∈ t.toList, isBlank c = false) ∧
      String.join (scan source).dropLast = String.ofList (source.toList.filter (!isBlank ·)) := by
  rw [dropLast_scan]
  refine ⟨?_, fun t ht => ?_, ?_⟩
  · rw [scan, words, scanFrom_eq_longestMatch]
  · obtain ⟨w, hw, rfl⟩ := exists_lexeme_of_mem_words ht
    refine ⟨fun hempty => hw.ne_nil ?_, ?_⟩
    · rw [← String.toList_ofList (l := w), hempty]
      rfl
    · rw [String.toList_ofList]
      exact hw.not_isBlank
  · have hchars : (words source).map String.toList = longestMatch source.toList := by
      rw [words, scanFrom_eq_longestMatch, List.map_map]
      exact (List.map_congr_left fun w _ => String.toList_ofList).trans (List.map_id _)
    rw [String.join_eq, hchars, flatten_longestMatch]

/-- Of three bars in a row the first two are taken together, and a pair of them stays a pair in
front of the sign of an equation. -/
example : scan "a|||b<==c" = ["a", "||", "|", "b", "<=", "=", "c", endMark] := by
  cbv

/-- Blanks between two expressions do no more than separate their tokens. So the tokens of an
expression are scanned again from the tokens with single spaces between them. -/
theorem scan_separated :
    (∀ before blanks behind : String, blanks ≠ "" → (∀ c ∈ blanks.toList, isBlank c = true) →
      scan (before ++ blanks ++ behind) = (scan before).dropLast ++ scan behind) ∧
    ∀ source : String, scan (" ".intercalate (scan source).dropLast) = scan source := by
  constructor
  · intro before blanks behind hne hblank
    have hchars : (before ++ blanks ++ behind).toList =
        before.toList ++ (blanks.toList ++ behind.toList) := by
      rw [String.toList_append, String.toList_append, List.append_assoc]
    have hblanks : blanks.toList ≠ [] := by simpa using hne
    rw [dropLast_scan, scan, scan, words, hchars, scanFrom_append_blanks hblanks hblank,
      List.map_append, List.append_assoc]
    rfl
  · intro source
    have hscannable : ∀ t ∈ words source, t.Scannable := by
      intro t ht
      obtain ⟨w, hw, rfl⟩ := exists_lexeme_of_mem_words ht
      exact hw.scannable
    rw [dropLast_scan, scan, words_intercalate hscannable, scan]

/-- Two delimiters that would form an operator, with a tab and a space between them. -/
theorem scan_separated_signs :
    scan ("a<" ++ "\t " ++ "=b") = ["a", "<", "=", "b", endMark] := by
  have hblank : ∀ c ∈ "\t ".toList, isBlank c = true := by simp [isBlank]
  have hleft : (scan "a<").dropLast = ["a", "<"] := by cbv
  have hright : scan "=b" = ["=", "b", endMark] := by cbv
  rw [scan_separated.1 "a<" "\t " "=b" (by decide) hblank, hleft, hright]
  rfl

end TermReader.Token
