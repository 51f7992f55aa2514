import TermReader.Proofs.Lookahead
import TermReader.Proofs.Surroundings

/-!
How many exponents an operand takes. A power has one exponent, and a second one has no place
behind it. But an operand may end with a signed product whose last factor has no exponent yet:
then an exponent behind the operand belongs to this factor, and what has been read is still an
operand, which a further exponent may follow.
-/

namespace TermReader

/-- With any exponent behind it, what the item takes from `ts`, up to `rest`, is read as the
item again, if a token that closes the item follows. -/
def Raises (ctx : Context) (i : Item) (ts rest : List Token) : Prop :=
  ∃ u, u ≠ [] ∧ ts = u ++ rest ∧ ∀ {v c y}, Reads ctx (.one .unary) (v ++ c) y c →
    i.Closes (lead c) → ∃ x, Reads ctx i (u ++ "^" :: (v ++ c)) x c

namespace Raises

variable {ctx : Context} {t : Tier} {k : Series} {op : Token} {ts ts₁ rest : List Token} {x : Term}

theorem single (h : Raises ctx (.one t.operand) ts rest) :
    Raises ctx (.one (.tier t)) ts rest := by
  obtain ⟨u, hne, rfl, hu⟩ := h
  refine ⟨u, hne, rfl, fun hy hc => ?_⟩
  obtain ⟨x, hx⟩ := hu hy (Phrase.Closes.mono hc (Phrase.reach_operand_le t))
  exact ⟨x, .single hx fun hop => hc (.tier t) le_rfl (.inl hop)⟩

theorem joined (hx : Reads ctx (.one t.operand) ts x (op :: ts₁)) (hop : op ∈ t.operators)
    (h : Raises ctx (.one t.operand) ts₁ rest) : Raises ctx (.one (.tier t)) ts rest := by
  obtain ⟨v, -, rfl, hv⟩ := h
  obtain ⟨u, rfl, hu⟩ := hx.exists_prefix
  refine ⟨u ++ op :: v, by simp, by simp, fun hy hc => ?_⟩
  obtain ⟨z, hz⟩ := hv hy (Phrase.Closes.mono hc (Phrase.reach_operand_le t))
  rw [List.append_assoc, List.cons_append]
  exact ⟨_, .joined (hu _ (.inl rfl)) hop hz⟩

theorem summand (h : Raises ctx (.one .product) ts rest) : Raises ctx (.one .sum) ts rest := by
  obtain ⟨u, hne, rfl, hu⟩ := h
  refine ⟨u, hne, rfl, fun hy hc => ?_⟩
  have hmore := Item.Closes.more (k := .summands) hc
  obtain ⟨x, hx⟩ := hu hy hmore.1
  exact ⟨_, .sum hx (.stop hmore.2)⟩

theorem sum (hx : Reads ctx (.one .product) ts x ts₁) (h : Raises ctx (.more .summands) ts₁ rest) :
    Raises ctx (.one .sum) ts rest := by
  obtain ⟨v, hne, rfl, hv⟩ := h
  obtain ⟨u, rfl, hu⟩ := hx.exists_prefix
  refine ⟨u ++ v, by simp [hne], by simp, fun hy hc => ?_⟩
  obtain ⟨later, hlater⟩ := hv hy (Item.Closes.more (k := .summands) hc)
  rw [List.append_assoc]
  refine ⟨_, .sum (hu _ (.inl ?_)) hlater⟩
  rw [lead_append hne, lead_append hne]

theorem factor (h : Raises ctx (.one .power) ts rest) : Raises ctx (.one .product) ts rest := by
  obtain ⟨u, hne, rfl, hu⟩ := h
  refine ⟨u, hne, rfl, fun hy hc => ?_⟩
  have hmore := Item.Closes.more (k := .factors) hc
  obtain ⟨x, hx⟩ := hu hy hmore.1
  exact ⟨_, .product hx (.stop hmore.2)⟩

theorem product (hx : Reads ctx (.one .power) ts x ts₁)
    (h : Raises ctx (.more .factors) ts₁ rest) : Raises ctx (.one .product) ts rest := by
  obtain ⟨v, hne, rfl, hv⟩ := h
  obtain ⟨u, rfl, hu⟩ := hx.exists_prefix
  refine ⟨u ++ v, by simp [hne], by simp, fun hy hc => ?_⟩
  obtain ⟨later, hlater⟩ := hv hy (Item.Closes.more (k := .factors) hc)
  rw [List.append_assoc]
  refine ⟨_, .product (hu _ (.inl ?_)) hlater⟩
  rw [lead_append hne, lead_append hne]

theorem exponent (hx : Reads ctx (.one .unary) ts x rest)
    (hs : ¬ Takes ctx "^" (.one .unary) ts rest) : Raises ctx (.one .power) ts rest := by
  obtain ⟨u, rfl, hu⟩ := hx.exists_prefix
  exact ⟨u, hx.prefix_ne_nil, rfl, fun hy _ => ⟨_, .power (hu _ (.of_not_takes hs _)) hy⟩⟩

theorem base (h : Raises ctx (.one .unary) ts rest) : Raises ctx (.one .power) ts rest := by
  obtain ⟨u, hne, rfl, hu⟩ := h
  refine ⟨u, hne, rfl, fun hy hc => ?_⟩
  obtain ⟨x, hx⟩ := hu hy (Phrase.Closes.mono hc (by decide))
  exact ⟨x, .base hx (Phrase.Closes.ne hc (k := .power) le_rfl (by decide))⟩

theorem power (hx : Reads ctx (.one .unary) ts x ("^" :: ts₁))
    (h : Raises ctx (.one .unary) ts₁ rest) : Raises ctx (.one .power) ts rest := by
  obtain ⟨v, -, rfl, hv⟩ := h
  obtain ⟨u, rfl, hu⟩ := hx.exists_prefix
  refine ⟨u ++ "^" :: v, by simp, by simp, fun hy hc => ?_⟩
  obtain ⟨z, hz⟩ := hv hy (Phrase.Closes.mono hc (by decide))
  rw [List.append_assoc, List.cons_append]
  exact ⟨_, .power (hu _ (.inl rfl)) hz⟩

theorem minus (h : Raises ctx (.one .product) ts rest) :
    Raises ctx (.one .unary) ("-" :: ts) rest := by
  obtain ⟨u, -, rfl, hu⟩ := h
  refine ⟨"-" :: u, List.cons_ne_nil _ _, rfl, fun hy hc => ?_⟩
  obtain ⟨x, hx⟩ := hu hy (Phrase.Closes.mono hc (by decide))
  exact ⟨_, .minus hx⟩

theorem not (h : Raises ctx (.one .primary) ts rest) :
    Raises ctx (.one .unary) ("!" :: ts) rest := by
  obtain ⟨u, -, rfl, hu⟩ := h
  refine ⟨"!" :: u, List.cons_ne_nil _ _, rfl, fun hy hc => ?_⟩
  obtain ⟨x, hx⟩ := hu hy (Phrase.Closes.mono hc (by decide))
  exact ⟨_, .not hx⟩

theorem plain (hminus : lead ts ≠ "-") (hnot : lead ts ≠ "!")
    (h : Raises ctx (.one .primary) ts rest) : Raises ctx (.one .unary) ts rest := by
  obtain ⟨u, hne, rfl, hu⟩ := h
  refine ⟨u, hne, rfl, fun {v c y} hy hc => ?_⟩
  obtain ⟨x, hx⟩ := hu hy (Phrase.Closes.mono hc (by decide))
  rw [lead_append hne, ← lead_append hne ("^" :: (v ++ c))] at hminus hnot
  exact ⟨x, .plain hminus hnot hx (Phrase.Closes.ne hc (k := .index) le_rfl (by decide))⟩

theorem apply {t : Token} (ht : ctx.opening t = .call) (hangle : lead ts ≠ "<")
    (hparen : lead ts ≠ "(") (hone : 1 ∈ ctx.arities t) (h : Raises ctx (.one .unary) ts rest) :
    Raises ctx (.one .primary) (t :: ts) rest := by
  obtain ⟨u, hne, rfl, hu⟩ := h
  refine ⟨t :: u, List.cons_ne_nil _ _, rfl, fun {v c y} hy hc => ?_⟩
  obtain ⟨x, hx⟩ := hu hy (Phrase.Closes.mono hc (by decide))
  rw [lead_append hne, ← lead_append hne ("^" :: (v ++ c))] at hangle hparen
  exact ⟨_, .apply ht hangle hparen hone hx⟩

theorem last {j : Joint} (hjoint : k.joint? (lead ts) = some j)
    (h : Raises ctx (.one k.operand) (j.past ts) rest) : Raises ctx (.more k) ts rest := by
  obtain ⟨u, hne, hpast, hu⟩ := h
  obtain ⟨w, hw, rfl, hpasts⟩ := Joint.exists_prefix hjoint hpast hne
  refine ⟨w, hw, rfl, fun {v c y} hy hc => ?_⟩
  obtain ⟨x, hx⟩ := hu hy hc.1
  obtain ⟨hlead, hpast'⟩ := hpasts ("^" :: (v ++ c))
  exact ⟨_, .step (hlead ▸ hjoint) (hpast' ▸ hx) (.stop hc.2)⟩

theorem later {j : Joint} (hjoint : k.joint? (lead ts) = some j)
    (hx : Reads ctx (.one k.operand) (j.past ts) x ts₁) (h : Raises ctx (.more k) ts₁ rest) :
    Raises ctx (.more k) ts rest := by
  obtain ⟨v, hne, rfl, hv⟩ := h
  obtain ⟨u, hpast, hu⟩ := hx.exists_prefix
  obtain ⟨w, hw, rfl, hpasts⟩ :=
    Joint.exists_prefix hjoint hpast (hpast ▸ hx).prefix_ne_nil
  refine ⟨w ++ v, by simp [hne], by simp, fun {v' c y} hy hc => ?_⟩
  obtain ⟨xs, hxs⟩ := hv hy hc
  obtain ⟨hlead, hpast'⟩ := hpasts (v ++ "^" :: (v' ++ c))
  rw [List.append_assoc]
  refine ⟨_, .step (hlead ▸ hjoint) (hpast' ▸ hu _ (.inl ?_)) hxs⟩
  rw [lead_append hne, lead_append hne]

end Raises

/-- Where an exponent is taken, a whole exponent can be added. The induction is on the tokens
that are left and the item, because the operand in front of the exponent may take it itself. -/
theorem Takes.raises {ctx : Context} {i : Item} {ts rest : List Token}
    (h : Takes ctx "^" i ts rest) : Raises ctx i ts rest := by
  induction hn : 16 * ts.length + i.rank using Nat.strong_induction_on generalizing i ts with
  | _ n ih =>
  subst hn
  cases h with
  | @operator t _ _ _ _ hs => exact absurd hs (by cases t <;> decide)
  | @single t _ _ h =>
    have hrank := t.rank_operand_lt
    exact (ih _ (by simp only [Item.rank]; omega) h rfl).single
  | @joined t op _ _ _ _ hx hop h =>
    have hrank := t.rank_operand_lt
    have hshort := hx.shortens
    simp only [Item.Shortens, List.length_cons] at hshort
    exact .joined hx hop (ih _ (by simp only [Item.rank]; omega) h rfl)
  | summand h => exact (ih _ (by simp only [Item.rank, Phrase.rank]; omega) h rfl).summand
  | sum hx h =>
    have hshort := hx.shortens
    simp only [Item.Shortens] at hshort
    exact .sum hx (ih _ (by simp only [Item.rank, Phrase.rank]; omega) h rfl)
  | factor h => exact (ih _ (by simp only [Item.rank, Phrase.rank]; omega) h rfl).factor
  | product hx h =>
    have hshort := hx.shortens
    simp only [Item.Shortens] at hshort
    exact .product hx (ih _ (by simp only [Item.rank, Phrase.rank]; omega) h rfl)
  | exponent hx =>
    by_cases hs : Takes ctx "^" (.one .unary) ts rest
    · exact (ih _ (by simp only [Item.rank, Phrase.rank]; omega) hs rfl).base
    · exact .exponent hx hs
  | base h => exact (ih _ (by simp only [Item.rank, Phrase.rank]; omega) h rfl).base
  | power hx h =>
    have hshort := hx.shortens
    simp only [Item.Shortens, List.length_cons] at hshort
    exact .power hx (ih _ (by simp only [Item.rank, Phrase.rank]; omega) h rfl)
  | minus h =>
    exact (ih _ (by simp only [Item.rank, Phrase.rank, List.length_cons]; omega) h rfl).minus
  | not h =>
    exact (ih _ (by simp only [Item.rank, Phrase.rank, List.length_cons]; omega) h rfl).not
  | index _ hs => exact absurd hs (by decide)
  | plain hminus hnot h =>
    exact .plain hminus hnot (ih _ (by simp only [Item.rank, Phrase.rank]; omega) h rfl)
  | apply ht hangle hparen hone h =>
    exact .apply ht hangle hparen hone
      (ih _ (by simp only [Item.rank, Phrase.rank, List.length_cons]; omega) h rfl)
  | @joint k _ hs => exact absurd (by cases k <;> decide) hs
  | @last k j _ _ hjoint h =>
    have hpast := j.length_past_le ts
    have hrank := k.rank_operand_lt.trans_le k.rank_le
    exact .last hjoint (ih _ (by simp only [Item.rank]; omega) h rfl)
  | @later k j _ _ _ _ hjoint hx h =>
    have hpast := j.length_past_le ts
    have hshort := hx.shortens
    simp only [Item.Shortens] at hshort
    exact .later hjoint hx (ih _ (by simp only [Item.rank]; omega) h rfl)
  | dimensions hs => exact absurd hs (by decide)

namespace Grammar

variable {ctx : Context} {u v w : List Token} {x y z : Term}

/-- A whole term with further tokens behind it is rejected at the first of them. -/
theorem read_eq_error_of_reads {ts rest : List Token} (h : Reads ctx (.one .term) ts x rest)
    (hrest : rest ≠ [Token.endMark]) :
    read ctx .terms ts () =
      .error (.rejected ⟨.trailingTokens, lead rest, ts.length - rest.length, none⟩) () := by
  obtain ⟨m, ⟨hm, hx⟩, hlength⟩ := h.moves 0
  have hposition : ts.length - rest.length = m := by omega
  have hrun : (phrase ctx .terms .term (.start ts)).bare () = .ok (x, ⟨m, rest⟩) () :=
    Reading.bare_of_ok hx
  rw [read_eq, Reading.andThen_of_bare_ok hrun, if_neg hrest, hposition]
  rfl

/-- What is left at a second exponent is left by the looser phrases too. -/
theorem reads_term_of_power {ts rest : List Token}
    (h : Reads ctx (.one .power) ts x ("^" :: rest)) :
    Reads ctx (.one .term) ts x ("^" :: rest) := by
  have hproduct : Reads ctx (.one .product) ts x ("^" :: rest) :=
    .product h (.stop (show Series.factors.joint? "^" = none by decide))
  have hsum : Reads ctx (.one .sum) ts x ("^" :: rest) :=
    .sum hproduct (.stop (show Series.summands.joint? "^" = none by decide))
  have htier (t : Tier) : "^" ∉ t.operators := by cases t <;> decide
  exact .single (.single (.single (.single hsum (htier _)) (htier _)) (htier _)) (htier _)

/-- An operand with an exponent is read to its end, as an operand if it goes on at the
exponent and as a power if it does not. -/
theorem ReadsAlone.raised (hu : ReadsAlone ctx .unary u x) (hv : ReadsAlone ctx .unary v y) :
    (GoesOn ctx "^" u → ∃ t, ReadsAlone ctx .unary (u ++ "^" :: v) t) ∧
      ∃ t, ReadsAlone ctx .power (u ++ "^" :: v) t := by
  have hend (p : Phrase) : p.Closes (lead [Token.endMark]) :=
    p.closes_of_mem (t := Token.endMark) (by decide)
  have hgoes (h : GoesOn ctx "^" u) : ∃ t, ReadsAlone ctx .unary (u ++ "^" :: v) t := by
    obtain ⟨u', -, hu', hraised⟩ := Takes.raises h
    obtain rfl := List.append_cancel_right hu'
    obtain ⟨t, ht⟩ := hraised (readsAlone_iff.1 hv) (hend .unary)
    exact ⟨t, readsAlone_iff.2 (by simpa using ht)⟩
  refine ⟨hgoes, ?_⟩
  by_cases h : GoesOn ctx "^" u
  · obtain ⟨t, ht⟩ := hgoes h
    exact ⟨t, readsAlone_iff.2 (.base (readsAlone_iff.1 ht) (by decide))⟩
  · have hpower := Reads.power (hu.before h) (readsAlone_iff.1 hv)
    exact ⟨_, readsAlone_iff.2 (by simpa using hpower)⟩

theorem ReadsAlone.read_of_power (hctx : ctx.WellNamed) (h : ReadsAlone ctx .power u x) :
    read ctx .terms (u ++ [Token.endMark]) () = .ok x () :=
  (read_eq_ok_iff ctx _ x).2 ((readsAlone_iff.1 h).climb hctx .power_term (.of_mem (by decide)))

/-- Powers do not chain. Of three operands with exponent signs between them the third is one
too many, unless the first or the second goes on at the sign behind it; then it takes what
follows, and the whole is accepted. -/
theorem read_two_exponents (hctx : ctx.WellNamed) (hu : ReadsAlone ctx .unary u x)
    (hv : ReadsAlone ctx .unary v y) (hw : ReadsAlone ctx .unary w z) :
    (¬ GoesOn ctx "^" u → ¬ GoesOn ctx "^" v →
      read ctx .terms (u ++ "^" :: (v ++ "^" :: (w ++ [Token.endMark]))) () =
        .error (.rejected ⟨.trailingTokens, "^", u.length + 1 + v.length, none⟩) ()) ∧
    (GoesOn ctx "^" u ∨ GoesOn ctx "^" v →
      ∃ t, read ctx .terms (u ++ "^" :: (v ++ "^" :: (w ++ [Token.endMark]))) () = .ok t ()) := by
  constructor
  · intro hnu hnv
    have hpower := Reads.power (hu.before hnu) (hv.before (c := w ++ [Token.endMark]) hnv)
    rw [read_eq_error_of_reads (reads_term_of_power hpower) (by simp)]
    have hlength : (u ++ "^" :: (v ++ "^" :: (w ++ [Token.endMark]))).length -
        ("^" :: (w ++ [Token.endMark])).length = u.length + 1 + v.length := by
      simp only [List.length_append, List.length_cons]
      omega
    rw [hlength, lead_cons]
  · rintro (h | h)
    · obtain ⟨t, ht⟩ := (hu.raised hv).1 h
      obtain ⟨t', ht'⟩ := (ht.raised hw).2
      exact ⟨t', by simpa using ht'.read_of_power hctx⟩
    · obtain ⟨t, ht⟩ := (hv.raised hw).1 h
      obtain ⟨t', ht'⟩ := (hu.raised ht).2
      exact ⟨t', by simpa using ht'.read_of_power hctx⟩

/-- Three numerals, and the same with a sign in front. -/
theorem read_two_exponents_numerals :
    read .standard .terms ["2", "^", "3", "^", "4", Token.endMark] () =
        .error (.rejected ⟨.trailingTokens, "^", 3, none⟩) () ∧
      ∃ t, read .standard .terms ["-", "2", "^", "3", "^", "4", Token.endMark] () = .ok t () := by
  have hctx := Context.wellNamed_standard
  have htwo : Context.standard.opening "2" = .leaf (.int 2) := by cbv
  have hthree : Context.standard.opening "3" = .leaf (.int 3) := by cbv
  have hfour : Context.standard.opening "4" = .leaf (.int 4) := by cbv
  constructor
  · have hbase := not_goesOn_of_leaf hctx htwo (s := "^") (by decide)
    have hexponent := not_goesOn_of_leaf hctx hthree (s := "^") (by decide)
    exact (read_two_exponents hctx (.leaf hctx htwo) (.leaf hctx hthree) (.leaf hctx hfour)).1
      hbase hexponent
  · have hoperand := readsAlone_iff.1 (.leaf hctx htwo)
    have hminus : ReadsAlone .standard .unary ["-", "2"] (.node ".-" [.leaf (.int 2)] []) :=
      ⟨⟨2, [Token.endMark]⟩, by decide, by cbv, rfl⟩
    refine (read_two_exponents hctx hminus (.leaf hctx hthree) (.leaf hctx hfour)).2 (.inl ?_)
    exact .minus (.factor (.exponent hoperand rfl))

/-- A negated operand takes an exponent and is raised to another one. -/
theorem negated_operand_takes_two_exponents :
    (∃ x y z, ReadsAlone .standard .unary ["-", "2"] x ∧ ReadsAlone .standard .unary ["3"] y ∧
      ReadsAlone .standard .unary ["4"] z) ∧
    read .standard .terms ["-", "2", "^", "3", "^", "4", Token.endMark] () =
      .ok (.node "^" [.node ".-" [.node "^" [.leaf (.int 2), .leaf (.int 3)] []] [],
        .leaf (.int 4)] []) () := by
  refine ⟨⟨.node ".-" [.leaf (.int 2)] [], .leaf (.int 3), .leaf (.int 4), ?_, ?_, ?_⟩, by cbv⟩
  · exact ⟨⟨2, [Token.endMark]⟩, by decide, by cbv, rfl⟩
  · exact ⟨⟨1, [Token.endMark]⟩, by decide, by cbv, rfl⟩
  · exact ⟨⟨1, [Token.endMark]⟩, by decide, by cbv, rfl⟩

end Grammar

end TermReader
