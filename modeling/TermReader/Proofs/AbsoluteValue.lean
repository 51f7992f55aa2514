import TermReader.Proofs.Numerals
import TermReader.Proofs.Rejections
import TermReader.Proofs.Surroundings

/-!
Bars around an expression. They make an absolute value of what stands between them, unless this
begins or ends with a bar itself. Two bars in a row are one operator, and no expression begins or
ends with an operator of two characters, so such an expression cannot be put between bars as it
stands.
-/

namespace TermReader

/-- What the grammar derives ends with a token that stands for a value or closes a bracket. -/
theorem Derives.getLast?_ne {ctx : Context} {t : Token} (hnone : ctx.opening t = .none)
    (ht : t ∉ [")", "]", "\x7d", "|", ">"]) {i : Item} {u : List Token} {x : i.Value}
    (h : Derives ctx i u x) : u.getLast? ≠ some t := by
  have hclose {s : Token} (hs : s ∈ [")", "]", "\x7d", "|", ">"]) : some s ≠ some t :=
    fun heq => ht (Option.some.inj heq ▸ hs)
  have happend {v w : List Token} (hv : v.getLast? ≠ some t) (hw : w.getLast? ≠ some t) :
      (v ++ w).getLast? ≠ some t := by
    rw [List.getLast?_append]
    exact fun heq => (Option.or_eq_some_iff.1 heq).elim hw fun h => hv h.2
  have hcons {s : Token} {v : List Token} (hne : v ≠ []) (hv : v.getLast? ≠ some t) :
      (s :: v).getLast? ≠ some t := by
    rwa [List.getLast?_cons_of_ne_nil hne]
  induction h with
  | single _ ih | base _ ih | plain _ ih => exact ih
  | joined _ _ hy _ ihy | power _ hy _ ihy =>
    rw [List.getLast?_append_of_ne_nil _ (List.cons_ne_nil _ _)]
    exact hcons (hy.ne_nil rfl) ihy
  | sum _ _ ihx ihlater | product _ _ ihx ihlater | juxtaposed _ _ _ ihx ihlater =>
    exact happend ihx ihlater
  | step _ hx _ ihx ihlater =>
    exact hcons (List.append_ne_nil_of_left_ne_nil (hx.ne_nil rfl) _) (happend ihx ihlater)
  | minus hx ih | not hx ih | vector _ hx ih | apply _ _ _ _ hx ih | row hx ih =>
    exact hcons (hx.ne_nil rfl) ih
  | leaf hleaf =>
    rintro heq
    rw [List.getLast?_singleton, Option.some.injEq] at heq
    rw [heq, hnone] at hleaf
    cases hleaf
  | stop | noDimensions => exact nofun
  | index1 | index2 | paren | bar | matrix | set | callNone | callSome | empty | elements
  | dimensions =>
    simp only [List.getLast?_append, List.getLast?_cons, List.getLast?_nil, Option.some_or,
      Option.getD_some, Option.getD_none]
    exact hclose (by decide)

/-- What the grammar derives consists of leaves, functions and symbols, so no numeral in it has too
many digits. -/
theorem Derives.ne_excess {ctx : Context} (hctx : ctx.WellNamed) (digits : Nat) {i : Item}
    {u : List Token} {x : i.Value} (h : Derives ctx i u x) :
    ∀ t ∈ u, ctx.opening t ≠ .excess digits := by
  have happend {v w : List Token} (hv : ∀ t ∈ v, ctx.opening t ≠ .excess digits)
      (hw : ∀ t ∈ w, ctx.opening t ≠ .excess digits) :
      ∀ t ∈ v ++ w, ctx.opening t ≠ .excess digits := List.forall_mem_append.2 ⟨hv, hw⟩
  have hopen {s : Token} {v : List Token} (hs : s.Symbolic)
      (hv : ∀ t ∈ v, ctx.opening t ≠ .excess digits) :
      ∀ t ∈ s :: v, ctx.opening t ≠ .excess digits :=
    List.forall_mem_cons.2 ⟨hctx.opening_ne_excess hs, hv⟩
  have hclose {s : Token} {v : List Token} (hs : s.Symbolic)
      (hv : ∀ t ∈ v, ctx.opening t ≠ .excess digits) :
      ∀ t ∈ v ++ [s], ctx.opening t ≠ .excess digits := happend hv (hopen hs nofun)
  have hcall {s : Token} {v : List Token} (hs : ctx.opening s = .call)
      (hv : ∀ t ∈ v, ctx.opening t ≠ .excess digits) :
      ∀ t ∈ s :: v, ctx.opening t ≠ .excess digits :=
    List.forall_mem_cons.2 ⟨by rw [hs]; exact nofun, hv⟩
  induction h with
  | single _ ih | base _ ih | plain _ ih => exact ih
  | stop | noDimensions => exact nofun
  | leaf hleaf =>
    refine List.forall_mem_singleton.2 ?_
    rw [hleaf]
    exact nofun
  | empty => exact hopen (by decide) nofun
  | sum _ _ ihx ihlater | product _ _ ihx ihlater | juxtaposed _ _ _ ihx ihlater =>
    exact happend ihx ihlater
  | joined _ hop _ ihx ihy => exact happend ihx (hopen (Tier.symbolic _ hop) ihy)
  | step hop _ _ ihx ihlater => exact hopen (Series.symbolic _ hop) (happend ihx ihlater)
  | power _ _ ihx ihy => exact happend ihx (hopen (by decide) ihy)
  | minus _ ih | not _ ih | vector _ _ ih | row _ ih => exact hopen (by decide) ih
  | index1 _ _ ihx ihi => exact happend ihx (hopen (by decide) (hclose (by decide) ihi))
  | index2 _ _ _ ihx ihi ihj =>
    exact happend ihx (hopen (by decide) (happend ihi (hopen (by decide) (hclose (by decide) ihj))))
  | paren _ ih | bar _ ih => exact hopen (by decide) (hclose (by decide) ih)
  | matrix _ _ ihx ihlater | set _ _ ihx ihlater | dimensions _ _ ihx ihlater =>
    exact hopen (by decide) (happend ihx (hclose (by decide) ihlater))
  | elements _ _ ihx ihlater => exact happend ihx (hclose (by decide) ihlater)
  | callNone ht _ _ ih => exact hcall ht (happend ih (hopen (by decide) (hopen (by decide) nofun)))
  | callSome ht _ _ _ _ ihdims ihx ihlater =>
    exact hcall ht (happend ihdims (hopen (by decide) (happend ihx (hclose (by decide) ihlater))))
  | apply ht _ _ _ _ ih => exact hcall ht ih

namespace Token

theorem isCompound_bar_left {b : Char} : isCompound '|' b = true ↔ b = '|' := by
  simp [isCompound]

theorem isCompound_bar_right {a : Char} : isCompound a '|' = true ↔ a = '|' := by
  simp [isCompound]

/-- A bar behind a bar either forms an operator with it or finds it taken by another one. -/
theorem scanFrom_bar_bar (pending : List Char) {cs : List Char}
    (hlast : cs.getLast? = some '|') :
    ∃ ws, scanFrom pending cs = ws ++ [['|', '|']] ∨
      scanFrom pending cs = ws ++ [['|']] ∧
        scanFrom pending (cs ++ ['|']) = ws ++ [['|', '|']] := by
  fun_induction scanFrom pending cs with
  | case1 => cases hlast
  | case2 pending a ha =>
    obtain rfl : a = '|' := Option.some.inj hlast
    exact absurd ha (by decide)
  | case3 pending a ha hdelimiter =>
    obtain rfl : a = '|' := Option.some.inj hlast
    exact ⟨flush pending, .inr (by simp [scanFrom, ha, hdelimiter, isCompound, flush])⟩
  | case4 pending a ha hdelimiter =>
    obtain rfl : a = '|' := Option.some.inj hlast
    exact absurd rfl hdelimiter
  | case5 pending a b rest ha ih =>
    obtain ⟨ws, hws⟩ := ih (by simpa using hlast)
    refine ⟨flush pending ++ ws, hws.imp (fun h => ?_) (And.imp (fun h => ?_) fun h => ?_)⟩
    · rw [h, List.append_assoc]
    · rw [h, List.append_assoc]
    · simp only [List.cons_append] at h ⊢
      simp [scanFrom, ha, h]
  | case6 pending a b rest ha hdelimiter hcompound ih =>
    rcases eq_or_ne rest [] with rfl | hne
    · obtain rfl : b = '|' := Option.some.inj hlast
      obtain rfl := isCompound_bar_right.1 hcompound
      exact ⟨flush pending, .inl rfl⟩
    · obtain ⟨ws, hws⟩ := ih (by simpa [List.getLast?_cons_of_ne_nil, hne] using hlast)
      refine ⟨flush pending ++ [a, b] :: ws,
        hws.imp (fun h => ?_) (And.imp (fun h => ?_) fun h => ?_)⟩
      · rw [h, List.append_assoc, List.cons_append]
      · rw [h, List.append_assoc, List.cons_append]
      · simp [scanFrom, ha, hdelimiter, hcompound, h]
  | case7 pending a b rest ha hdelimiter hcompound ih =>
    obtain ⟨ws, hws⟩ := ih (by simpa using hlast)
    refine ⟨flush pending ++ [a] :: ws, hws.imp (fun h => ?_) (And.imp (fun h => ?_) fun h => ?_)⟩
    · rw [h, List.append_assoc, List.cons_append]
    · rw [h, List.append_assoc, List.cons_append]
    · simp only [List.cons_append] at h ⊢
      simp [scanFrom, ha, hdelimiter, hcompound, h]
  | case8 pending a b rest ha hdelimiter ih =>
    obtain ⟨ws, hws⟩ := ih (by simpa using hlast)
    refine ⟨ws, hws.imp_right (And.imp_right fun h => ?_)⟩
    simp only [List.cons_append] at h ⊢
    simp [scanFrom, ha, hdelimiter, h]

variable {source : String}

theorem toList_bars (source : String) :
    ("|" ++ source ++ "|").toList = '|' :: (source.toList ++ ['|']) := by
  simp [String.toList_append]

/-- A bar in front of an expression is a token of its own, unless the expression begins with one. -/
theorem scanFrom_bar_append {cs : List Char} (hne : cs ≠ []) (hfirst : cs.head? ≠ some '|') :
    scanFrom [] ('|' :: (cs ++ ['|'])) = ['|'] :: scanFrom [] (cs ++ ['|']) := by
  refine scanFrom_delimiter (by decide) [] fun b hb => Bool.eq_false_iff.2 fun hjoin => hfirst ?_
  rw [List.head?_append_of_ne_nil _ hne] at hb
  exact isCompound_bar_left.1 hjoin ▸ hb

theorem words_bars (hne : source.toList ≠ []) (hfirst : source.toList.head? ≠ some '|')
    (hlast : source.toList.getLast? ≠ some '|') :
    words ("|" ++ source ++ "|") = ["|"] ++ (words source ++ ["|"]) := by
  have hbehind : scanFrom [] (source.toList ++ ['|']) = scanFrom [] source.toList ++ [['|']] :=
    scanFrom_append_delimiter (by decide) [] fun a ha =>
      Bool.eq_false_iff.2 fun hjoin => hlast (isCompound_bar_right.1 hjoin ▸ ha)
  unfold words
  rw [toList_bars, scanFrom_bar_append hne hfirst, hbehind, List.map_cons, List.map_append]
  rfl

/-- A bar in front of a bar makes an operator of two. -/
theorem words_bars_of_first (hfirst : source.toList.head? = some '|') :
    ∃ ws, words ("|" ++ source ++ "|") = "||" :: ws := by
  obtain ⟨cs, hcs⟩ := List.head?_eq_some_iff.1 hfirst
  refine ⟨(scanFrom [] (cs ++ ['|'])).map String.ofList, ?_⟩
  rw [words, toList_bars, hcs]
  rfl

/-- So does a bar behind a bar, if this is not the second one of an operator already. -/
theorem words_bars_of_last (hfirst : source.toList.head? ≠ some '|')
    (hlast : source.toList.getLast? = some '|') :
    ∃ ws, words source = ws ++ ["||"] ∨
      words source = ws ++ ["|"] ∧ words ("|" ++ source ++ "|") = ["|"] ++ (ws ++ ["||"]) := by
  have hne : source.toList ≠ [] := by
    intro hnil
    rw [hnil] at hlast
    cases hlast
  obtain ⟨ws, hws⟩ := scanFrom_bar_bar [] hlast
  refine ⟨ws.map String.ofList, hws.imp (fun h => ?_) (And.imp (fun h => ?_) fun h' => ?_)⟩
  · rw [words, h, List.map_append]
    rfl
  · rw [words, h, List.map_append]
    rfl
  · rw [words, toList_bars, scanFrom_bar_append hne hfirst, h', List.map_cons, List.map_append]
    rfl

end Token

namespace Expression

variable {ρ : Type} {ctx : Context} {splits : Bool} {chooser : Chooser ρ} {source : String}
  {random : ρ} {x : Term}

theorem opening_bars (hctx : ctx.WellNamed) : ctx.opening "||" = .none :=
  hctx.opening_of_symbolic (by decide)

theorem whole_of_mem_bars (ctx : Context) :
    ∀ bars ∈ ["|", "||"], ∀ t ∈ [bars], Token.Whole ctx t := by
  have hsign : ∀ bars ∈ ["|", "||"], Token.IsSign bars := by decide
  exact fun bars hbars => List.forall_mem_singleton.2 (hsign bars hbars).whole

/-- What begins with two bars is rejected there. -/
theorem parse_of_bars_first (hctx : ctx.WellNamed) {ws : List Token}
    (hwords : Token.words source = "||" :: ws) :
    (parse ctx .terms splits chooser source random ()).result =
      .error (.rejected ⟨.unexpectedToken, "||", 0, none⟩) () := by
  have hwords' : Token.words source = ["||"] ++ (ws ++ []) := by
    rw [hwords, List.append_nil]
    rfl
  have hprepare := prepare_surrounded ctx splits chooser random hwords'
    (whole_of_mem_bars ctx "||" (by decide)) (List.forall_mem_nil _) (by decide) (by decide)
    (by decide)
  unfold parse
  rw [hprepare]
  exact Grammar.read_unopened (opening_bars hctx) (by decide) (by decide) (by decide) ()

/-- What ends with two bars is not accepted. -/
theorem parse_ne_ok_of_bars_last (hctx : ctx.WellNamed) {u ws : List Token}
    (hu : ∀ t ∈ u, t.Whole ctx) (hopen : "\x7b" ∉ u)
    (hwords : Token.words source = u ++ (ws ++ ["||"])) :
    (parse ctx .terms splits chooser source random ()).result ≠ .ok x () := by
  have hprepare := prepare_surrounded ctx splits chooser random hwords hu
    (whole_of_mem_bars ctx "||" (by decide)) hopen (by decide) (by decide)
  unfold parse
  rw [hprepare]
  intro h
  obtain ⟨v, hv, hderives⟩ := ((Grammar.read_eq_ok_iff ctx _ x).1 h).derives
  rw [← List.append_assoc, ← List.append_assoc] at hv
  obtain rfl := List.append_cancel_right hv
  exact hderives.getLast?_ne (opening_bars hctx) (by decide) List.getLast?_concat

/-- The words in front of a bar have no numeral with too many digits if the expression is
accepted, so between bars they are at most rejected. -/
theorem exists_rejected_of_bars_last (hctx : ctx.WellNamed)
    (h : (parse ctx .terms splits chooser source random ()).result = .ok x ()) {ws : List Token}
    (hwords : Token.words source = ws ++ ["|"])
    (hbars : Token.words ("|" ++ source ++ "|") = ["|"] ++ (ws ++ ["||"])) :
    ∃ r, (parse ctx .terms splits chooser ("|" ++ source ++ "|") random ()).result =
      .error (.rejected r) () := by
  have hsource := prepare_surrounded (u := []) (w := ws) (v := ["|"]) ctx splits chooser random
    hwords (List.forall_mem_nil _) (whole_of_mem_bars ctx "|" (by decide)) (by decide) (by decide)
    (by decide)
  have hprepare := prepare_surrounded ctx splits chooser random hbars
    (whole_of_mem_bars ctx "|" (by decide)) (whole_of_mem_bars ctx "||" (by decide)) (by decide)
    (by decide) (by decide)
  cases hresult : (parse ctx .terms splits chooser ("|" ++ source ++ "|") random ()).result with
  | ok y =>
    exact absurd hresult
      (parse_ne_ok_of_bars_last hctx (whole_of_mem_bars ctx "|" (by decide)) (by decide) hbars)
  | error e =>
    cases e with
    | rejected r => exact ⟨r, rfl⟩
    | excessDigits digits =>
      unfold parse at h hresult
      rw [hsource] at h
      rw [hprepare] at hresult
      obtain ⟨u, hu, hderives⟩ := ((Grammar.read_eq_ok_iff ctx _ x).1 h).derives
      rw [List.nil_append, ← List.append_assoc] at hu
      obtain rfl := List.append_cancel_right hu
      dsimp only at hresult
      rw [← List.append_assoc, ← List.append_assoc] at hresult
      obtain ⟨t, ht, hexcess⟩ := Grammar.exists_excess_of_read hctx hresult
      simp only [List.mem_append, List.mem_singleton] at ht
      rcases ht with ((rfl | hinside) | rfl) | rfl
      · exact absurd hexcess (hctx.opening_ne_excess (by decide))
      · exact absurd hexcess
          (hderives.ne_excess hctx digits t (List.mem_append_left _ hinside))
      · exact absurd hexcess (hctx.opening_ne_excess (by decide))
      · exact absurd hexcess (hctx.opening_ne_excess (by decide))

/-- Bars around an expression are read around its tokens. -/
theorem parse_bars_ok (hctx : ctx.WellNamed)
    (h : (parse ctx .terms splits chooser source random ()).result = .ok x ())
    (hfirst : source.toList.head? ≠ some '|') (hlast : source.toList.getLast? ≠ some '|') :
    (parse ctx .terms splits chooser ("|" ++ source ++ "|") random ()).result =
        .ok (.node "abs" [x] []) () ∧
      (parse ctx .terms splits chooser ("|" ++ source ++ "|") random ()).prepared.choices =
        (parse ctx .terms splits chooser source random ()).prepared.choices ∧
      (parse ctx .terms splits chooser ("|" ++ source ++ "|") random ()).random =
        (parse ctx .terms splits chooser source random ()).random := by
  have hinside := readable_of_parse h ("|" :: [Token.endMark]) (.of_mem (t := "|") (by decide))
  have hwhole := whole_of_mem_bars ctx "|" (by decide)
  obtain ⟨hresult, hchoices, hrandom⟩ :
      Extends ctx splits chooser random source ("|" ++ source ++ "|") (.node "abs" [x] []) :=
    .of_words hctx (Token.words_bars (toList_ne_nil_of_parse h) hfirst hlast) hwhole hwhole
      (by decide) (by decide) (by decide) (.bar (hctx.opening_of_symbolic (by decide)) hinside)
      .primary_term
  exact ⟨hresult, hchoices, hrandom⟩

/-- Bars around an expression make its absolute value, with the same draws, unless it begins or
ends with a bar itself. Then the two bars are an operator, and this is rejected. -/
theorem parse_bars (hctx : ctx.WellNamed)
    (h : (parse ctx .terms splits chooser source random ()).result = .ok x ()) :
    let bars := parse ctx .terms splits chooser ("|" ++ source ++ "|") random ()
    (source.toList.head? ≠ some '|' → source.toList.getLast? ≠ some '|' →
      bars.result = .ok (.node "abs" [x] []) () ∧
        bars.prepared.choices =
          (parse ctx .terms splits chooser source random ()).prepared.choices ∧
        bars.random = (parse ctx .terms splits chooser source random ()).random) ∧
    (source.toList.head? = some '|' →
      bars.result = .error (.rejected ⟨.unexpectedToken, "||", 0, none⟩) ()) ∧
    (source.toList.getLast? = some '|' → ∃ r, bars.result = .error (.rejected r) ()) := by
  intro bars
  have hfirst (hbar : source.toList.head? = some '|') :
      bars.result = .error (.rejected ⟨.unexpectedToken, "||", 0, none⟩) () :=
    parse_of_bars_first hctx (Token.words_bars_of_first hbar).choose_spec
  refine ⟨parse_bars_ok hctx h, hfirst, fun hlast => ?_⟩
  by_cases hbar : source.toList.head? = some '|'
  · exact ⟨_, hfirst hbar⟩
  · obtain ⟨ws, hws | ⟨hws, hbars⟩⟩ := Token.words_bars_of_last hbar hlast
    · exact absurd h
        (parse_ne_ok_of_bars_last (u := []) hctx (List.forall_mem_nil _) List.not_mem_nil hws)
    · exact exists_rejected_of_bars_last hctx h hws hbars

/-- A sum with a group in it, and an absolute value. -/
theorem parse_bars_sum :
    (parse .standard .terms true .first "|ab\x7b+|-\x7d1|" () ()).result =
        .ok (.node "abs" [.node "+" [.node "*" [.leaf (.var "a"), .leaf (.var "b")] [],
          .leaf (.int 1)] []] []) () ∧
      (parse .standard .terms true .first "||x||" () ()).result =
        .error (.rejected ⟨.unexpectedToken, "||", 0, none⟩) () := by
  have hctx := Context.wellNamed_standard
  have hsum : (parse .standard .terms true .first "ab\x7b+|-\x7d1" () ()).result =
      .ok (.node "+" [.node "*" [.leaf (.var "a"), .leaf (.var "b")] [],
        .leaf (.int 1)] []) () := by
    cbv
  have hbars : (parse .standard .terms true .first "|x|" () ()).result =
      .ok (.node "abs" [.leaf (.var "x")] []) () := by
    cbv
  exact ⟨((parse_bars hctx hsum).1 (by decide) (by decide)).1,
    (parse_bars hctx hbars).2.1 (by decide)⟩

/-- An absolute value is accepted, and its absolute value is not. -/
theorem bars_around_bars_rejected :
    (parse .standard .terms true .first "|x|" () ()).result =
        .ok (.node "abs" [.leaf (.var "x")] []) () ∧
      (parse .standard .terms true .first "||x||" () ()).result =
        .error (.rejected ⟨.unexpectedToken, "||", 0, none⟩) () := by
  constructor
  · cbv
  · cbv

end Expression

end TermReader
