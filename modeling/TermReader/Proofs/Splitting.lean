import TermReader.Token.Split
import TermReader.Token.Alternatives
import TermReader.Proofs.Spelling

/-!
Splitting tokens and resolving groups do not disturb each other. No mark of a group is
ever split, and no piece of a split token is such a mark, so a group is found after
splitting exactly where it was found before, with the same operators. Which pass comes
first therefore changes neither the tokens nor the draws.
-/

namespace TermReader.Token

section Pieces

theorem isIdentifier_of_isUnknownName {ctx : Context} {t : Token}
    (h : isUnknownName ctx t = true) : isIdentifier t = true := by
  simp only [isUnknownName, Bool.and_eq_true] at h
  exact h.1.1.2

/-- A coefficient word has a digit in front and a letter behind its digits. -/
theorem exists_of_isCoefficientWord {cs : List Char} (h : isCoefficientWord cs = true) :
    (∃ d ∈ cs.takeWhile Char.isDigit, d.isDigit = true) ∧
      ∃ a ∈ cs.dropWhile Char.isDigit, isLetter a = true := by
  obtain ⟨hfirst, hlast⟩ := Bool.and_eq_true_iff.1 h
  constructor
  · obtain ⟨d, hd, hdigit⟩ := (Option.any_eq_true _ _).1 hfirst
    obtain ⟨cs, rfl⟩ := List.head?_eq_some_iff.1 hd
    rw [List.takeWhile_cons_of_pos hdigit]
    exact ⟨d, List.mem_cons_self, hdigit⟩
  · obtain ⟨a, ha, hletter⟩ := (Option.any_eq_true _ _).1 hlast
    have hmem := List.mem_of_getLast? ha
    rw [← List.takeWhile_append_dropWhile (p := Char.isDigit) (l := cs), List.mem_append] at hmem
    rcases hmem with hdigits | hrest
    · have hdigit := List.mem_takeWhile_imp hdigits
      rw [not_isDigit_of_isLetter hletter] at hdigit
      cases hdigit
    · exact ⟨a, hrest, hletter⟩

/-- A coefficient word has a digit and a letter. -/
theorem two_le_length {cs : List Char} (h : isCoefficientWord cs = true) : 2 ≤ cs.length := by
  obtain ⟨⟨d, hd, -⟩, a, ha, -⟩ := exists_of_isCoefficientWord h
  have hdigits := List.length_pos_of_mem hd
  have hrest := List.length_pos_of_mem ha
  have hlength := congrArg List.length
    (List.takeWhile_append_dropWhile (p := Char.isDigit) (l := cs))
  rw [List.length_append] at hlength
  omega

/-- Every piece of a token that falls apart has a letter or a digit in it. -/
theorem pieces_cases (ctx : Context) (t : Token) :
    pieces ctx t = [t] ∨ ∀ p ∈ pieces ctx t, ∃ c ∈ p.toList, isPlain c = true := by
  unfold pieces
  split
  · next hname =>
    right
    intro p hp
    obtain ⟨c, hc, rfl⟩ := List.mem_map.1 hp
    have hword := isWord_of_isIdentifier (isIdentifier_of_isUnknownName hname)
    exact ⟨c, by simp, hword.2 c hc⟩
  split
  · next hcoefficient =>
    right
    obtain ⟨⟨d, hd, hdigit⟩, a, ha, hletter⟩ := exists_of_isCoefficientWord hcoefficient
    simp only [List.forall_mem_cons, String.toList_ofList]
    exact ⟨⟨d, hd, isPlain_of_isDigit hdigit⟩, ⟨a, ha, isPlain_of_isLetter hletter⟩, by simp⟩
  · exact .inl rfl

theorem pieces_ne_nil (ctx : Context) (t : Token) : pieces ctx t ≠ [] := by
  unfold pieces
  split
  · next hname =>
    have hword := isWord_of_isIdentifier (isIdentifier_of_isUnknownName hname)
    exact mt List.map_eq_nil_iff.1 hword.1
  split
  · exact List.cons_ne_nil _ _
  · exact List.cons_ne_nil _ _

end Pieces

/-- The tokens of which groups of alternatives consist. -/
def groupMarks : List Token := ["\x7b", "\x7d", "|", "+", "-", "*", "/"]

theorem mem_groupMarks_of_isArithmetic {t : Token} (h : isArithmetic t = true) :
    t ∈ groupMarks := by
  simp only [isArithmetic, List.contains_iff_mem] at h
  exact List.mem_append_right ["\x7b", "\x7d", "|"] h

section Marks

variable {ctx : Context} {t : Token}

theorem not_mem_groupMarks {c : Char} (hc : c ∈ t.toList) (hplain : isPlain c = true) :
    t ∉ groupMarks := by
  have hmarks : groupMarks.all (fun t => t.toList.all fun c => !isPlain c) = true := by rfl
  intro ht
  have hnone := List.all_eq_true.1 (List.all_eq_true.1 hmarks t ht) c hc
  rw [hplain] at hnone
  cases hnone

/-- A mark of a group is kept. -/
theorem pieces_of_mem_groupMarks (ht : t ∈ groupMarks) : pieces ctx t = [t] := by
  have hname : isIdentifier t = false := by
    revert t
    decide
  have hcoefficient : isCoefficientWord t.toList = false := by
    revert t
    decide
  unfold pieces isUnknownName
  rw [hname, hcoefficient]
  simp

theorem split_cons_mark (ht : t ∈ groupMarks) (ts : List Token) :
    split ctx (t :: ts) = t :: split ctx ts := by
  rw [split, List.flatMap_cons, pieces_of_mem_groupMarks ht]
  rfl

/-- A token that is no mark falls into pieces that are none. -/
theorem not_mem_groupMarks_of_mem_pieces (ht : t ∉ groupMarks) :
    ∀ p ∈ pieces ctx t, p ∉ groupMarks := by
  intro p hp
  rcases pieces_cases ctx t with heq | hplain
  · rw [heq, List.mem_singleton] at hp
    rwa [hp]
  · obtain ⟨c, hc, hplain⟩ := hplain p hp
    exact not_mem_groupMarks hc hplain

theorem exists_split_cons (ctx : Context) (ht : t ∉ groupMarks) (ts : List Token) :
    ∃ p us, split ctx (t :: ts) = p :: us ∧ p ∉ groupMarks := by
  obtain ⟨p, ps, hpieces⟩ := List.exists_cons_of_ne_nil (pieces_ne_nil ctx t)
  have hp := not_mem_groupMarks_of_mem_pieces ht p (hpieces ▸ List.mem_cons_self)
  refine ⟨p, ps ++ split ctx ts, ?_, hp⟩
  rw [split, List.flatMap_cons, hpieces]
  rfl

/-- Splitting changes no mark at the front of a list, and puts none there. -/
theorem head?_split_eq_iff (ctx : Context) (ht : t ∈ groupMarks) (ts : List Token) :
    (split ctx ts).head? = some t ↔ ts.head? = some t := by
  cases ts with
  | nil => rfl
  | cons u ts =>
    by_cases hu : u ∈ groupMarks
    · rw [split_cons_mark hu]
      rfl
    · obtain ⟨p, us, hsplit, hp⟩ := exists_split_cons ctx hu ts
      rw [hsplit]
      constructor
      · rintro heq
        exact absurd ht (Option.some.inj heq ▸ hp)
      · rintro heq
        exact absurd ht (Option.some.inj heq ▸ hu)

end Marks

namespace Alternatives

/-- Every operator of a group is one of the four. -/
theorem isArithmetic_of_read? {tokens after : List Token} {g : Alternatives}
    (h : read? tokens = some (g, after)) : ∀ op ∈ g.operators, isArithmetic op = true := by
  fun_induction read? tokens generalizing g after with
  | case1 => cases h
  | case2 op rest hop =>
    obtain ⟨rfl, -⟩ := Prod.mk.inj (Option.some.inj h)
    simpa [operators] using hop
  | case3 op rest hop =>
    obtain ⟨rfl, -⟩ := Prod.mk.inj (Option.some.inj h)
    simpa [operators] using hop
  | case4 op rest hop _ _ ih =>
    obtain ⟨⟨g', after'⟩, hread, heq⟩ := Option.map_eq_some_iff.1 h
    obtain ⟨rfl, -⟩ := Prod.mk.inj heq
    have hop : isArithmetic op = true := by simpa using hop
    exact List.forall_mem_cons.2 ⟨hop, ih hread⟩
  | case5 => cases h
  | case6 => cases h

/-- A group needs an operator in front, and a bar or the closing brace behind it. -/
theorem read?_eq_none {tokens : List Token}
    (h : ∀ op, tokens.head? = some op → isArithmetic op = true →
      tokens.tail.head? ≠ some "\x7d" ∧ tokens.tail.head? ≠ some "|") : read? tokens = none := by
  unfold read?
  split
  · next op sep rest =>
    by_cases hop : isArithmetic op = true
    · have hsep := h op rfl hop
      simp only [List.tail_cons, List.head?_cons, ne_eq, Option.some.injEq] at hsep
      simp [hop, hsep]
    · simp [hop]
  · rfl

/-- Where no group was, splitting makes none. -/
theorem read?_split_eq_none (ctx : Context) {tokens : List Token}
    (h : ∀ op, tokens.head? = some op → isArithmetic op = true →
      tokens.tail.head? ≠ some "\x7d" ∧ tokens.tail.head? ≠ some "|") :
    read? (split ctx tokens) = none := by
  refine read?_eq_none fun op hhead hop => ?_
  have hmark := mem_groupMarks_of_isArithmetic hop
  rw [head?_split_eq_iff ctx hmark] at hhead
  obtain ⟨ts, rfl⟩ := List.head?_eq_some_iff.1 hhead
  rw [split_cons_mark hmark, List.tail_cons, ne_eq, ne_eq, head?_split_eq_iff ctx (by decide),
    head?_split_eq_iff ctx (by decide)]
  exact h op rfl hop

/-- A group is read after splitting as it was before, and what follows it is split. -/
theorem read?_split (ctx : Context) (tokens : List Token) :
    read? (split ctx tokens) = (read? tokens).map fun r => (r.1, split ctx r.2) := by
  fun_induction read? tokens with
  | case1 op sep rest hop =>
    refine read?_split_eq_none ctx fun op' hhead hop' => ?_
    obtain rfl := Option.some.inj hhead
    rw [hop'] at hop
    cases hop
  | case2 op rest hop =>
    have hmark := mem_groupMarks_of_isArithmetic (by simpa using hop)
    rw [split_cons_mark hmark, split_cons_mark (by decide), read?, if_neg hop, if_pos rfl]
    rfl
  | case3 op rest hop hclose _ =>
    have hmark := mem_groupMarks_of_isArithmetic (by simpa using hop)
    obtain ⟨rest, rfl⟩ := List.head?_eq_some_iff.1 hclose
    rw [split_cons_mark hmark, split_cons_mark (by decide), split_cons_mark (by decide), read?,
      if_neg hop, if_neg (by decide), if_pos rfl, List.head?_cons, if_pos rfl]
    rfl
  | case4 op rest hop hclose _ ih =>
    have hmark := mem_groupMarks_of_isArithmetic (by simpa using hop)
    rw [← head?_split_eq_iff ctx (by decide)] at hclose
    rw [split_cons_mark hmark, split_cons_mark (by decide), read?, if_neg hop,
      if_neg (by decide), if_pos rfl, if_neg hclose, ih, Option.map_map, Option.map_map]
    rfl
  | case5 op sep rest hop hclose hbar =>
    refine read?_split_eq_none ctx fun op' hhead hop' => ?_
    simp [hclose, hbar]
  | case6 tokens hshort =>
    refine read?_split_eq_none ctx fun op hhead hop => ?_
    obtain ⟨ts, rfl⟩ := List.head?_eq_some_iff.1 hhead
    cases ts with
    | nil => simp
    | cons sep ts => exact absurd rfl (hshort op sep ts)

end Alternatives

/-- A segment after splitting: a single token falls into its pieces, a group stays. -/
def Segment.split (ctx : Context) : Segment → List Segment
  | literal t => (pieces ctx t).map literal
  | group g => [group g]

/-- The pieces of a token are segments of their own, unless it is a brace. -/
theorem segments_pieces {ctx : Context} {t : Token} (ht : t ≠ "\x7b") (ts : List Token) :
    segments (pieces ctx t ++ ts) = (pieces ctx t).map .literal ++ segments ts := by
  have hne : ∀ p ∈ pieces ctx t, p ≠ "\x7b" := by
    rcases pieces_cases ctx t with heq | hplain
    · rw [heq]
      exact List.forall_mem_singleton.2 ht
    · rintro p hp rfl
      obtain ⟨c, hc, hplain⟩ := hplain _ hp
      exact not_mem_groupMarks hc hplain (by decide)
  generalize pieces ctx t = ps at hne
  induction ps with
  | nil => rfl
  | cons p ps ih =>
    obtain ⟨hp, hps⟩ := List.forall_mem_cons.1 hne
    rw [List.cons_append, segments_cons hp, ih hps]
    rfl

/-- The segments after splitting are the segments before it, each split. -/
theorem segments_split (ctx : Context) (tokens : List Token) :
    segments (split ctx tokens) = (segments tokens).flatMap (Segment.split ctx) := by
  fun_induction segments tokens with
  | case1 => rw [split, List.flatMap_nil, segments, List.flatMap_nil]
  | case2 rest g after hread ih =>
    have hsplit := Alternatives.read?_split ctx rest
    rw [hread] at hsplit
    rw [split_cons_mark (by decide), segments_group hsplit, ih, List.flatMap_cons]
    rfl
  | case3 rest hread ih =>
    have hsplit := Alternatives.read?_split ctx rest
    rw [hread] at hsplit
    rw [split_cons_mark (by decide), segments_brace hsplit, ih, List.flatMap_cons, Segment.split,
      pieces_of_mem_groupMarks (by decide)]
    rfl
  | case4 t rest ht ih =>
    rw [split, List.flatMap_cons, segments_pieces ht, List.flatMap_cons, ← ih]
    rfl

theorem isArithmetic_of_mem_segments {tokens : List Token} {g : Alternatives}
    (h : .group g ∈ segments tokens) : ∀ op ∈ g.operators, isArithmetic op = true := by
  fun_induction segments tokens with
  | case1 => cases h
  | case2 rest g' after hread ih =>
    rcases List.mem_cons.1 h with heq | hmem
    · obtain rfl := Segment.group.inj heq
      exact Alternatives.isArithmetic_of_read? hread
    · exact ih hmem
  | case3 rest hread ih =>
    rcases List.mem_cons.1 h with heq | hmem
    · cases heq
    · exact ih hmem
  | case4 t rest ht ih =>
    rcases List.mem_cons.1 h with heq | hmem
    · cases heq
    · exact ih hmem

section Resolving

variable {ρ : Type}

/-- Splitting the segments splits the tokens they resolve to, and the draws stay. -/
theorem resolveSegments_split (ctx : Context) (chooser : Chooser ρ) {parts : List Segment}
    (h : ∀ g, .group g ∈ parts → ∀ op ∈ g.operators, isArithmetic op = true) (state : ρ) :
    resolveSegments chooser (parts.flatMap (Segment.split ctx)) state =
      (⟨split ctx (resolveSegments chooser parts state).1.tokens,
        (resolveSegments chooser parts state).1.choices⟩,
        (resolveSegments chooser parts state).2) := by
  induction parts generalizing state with
  | nil => rfl
  | cons part parts ih =>
    have hparts := fun g hg => h g (List.mem_cons_of_mem _ hg)
    rw [List.flatMap_cons]
    cases part with
    | literal t =>
      rw [Segment.split, resolveSegments_literals_append, ih hparts]
      rfl
    | group g =>
      have hpick (i) : g.pick i ∈ groupMarks :=
        mem_groupMarks_of_isArithmetic (h g List.mem_cons_self _ (List.get_mem _ _))
      simp only [Segment.split, List.singleton_append, resolveSegments, ih hparts,
        split_cons_mark (hpick _)]

/-- Resolving the groups after splitting gives the same tokens as splitting after
resolving them, with the same draws from the same alternatives in the same order. -/
theorem resolve_split (ctx : Context) (chooser : Chooser ρ) (tokens : List Token) (state : ρ) :
    resolve chooser (split ctx tokens) state =
      (⟨split ctx (resolve chooser tokens state).1.tokens,
        (resolve chooser tokens state).1.choices⟩, (resolve chooser tokens state).2) := by
  unfold resolve
  rw [segments_split]
  exact resolveSegments_split ctx chooser (fun _ => isArithmetic_of_mem_segments) state

end Resolving

end TermReader.Token
