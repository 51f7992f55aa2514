import TermReader.Proofs.Scanning
import TermReader.Proofs.ReadBack
import TermReader.Proofs.WellFormed
import TermReader.Expression

/-!
Terms are read back from their text. The tokens of a term, with spaces between them,
are scanned back; none of their braces opens a group of alternatives, since what
follows is an operand in parentheses; and the reader makes the term of them again.
-/

namespace TermReader

namespace Token

/-- The tokens are scanned back, and no group is found among them. -/
structure Clean (u : List Token) : Prop where
  scannable : ∀ t ∈ u, t.Scannable
  segments : ∀ rest, segments (u ++ rest) = u.map .literal ++ segments rest

/-- A brace opens no group before an opening parenthesis. -/
theorem segments_brace_paren {rest : List Token} (hrest : lead rest = "(") :
    segments ("\x7b" :: rest) = .literal "\x7b" :: segments rest := by
  refine segments_brace ?_
  rw [eq_cons_of_lead hrest (by decide)]
  cases rest.tail with
  | nil => rfl
  | cons => rfl

namespace Clean

variable {u v : List Token} {us : List (List Token)} {t : Token}

theorem nil : Clean [] := ⟨by simp, fun _ => rfl⟩

theorem cons (ht : t.Scannable) (hne : t ≠ "\x7b") (hu : Clean u) : Clean (t :: u) := by
  refine ⟨List.forall_mem_cons.2 ⟨ht, hu.scannable⟩, fun rest => ?_⟩
  rw [List.cons_append, segments_cons hne, hu.segments, List.map_cons, List.cons_append]

theorem append (hu : Clean u) (hv : Clean v) : Clean (u ++ v) := by
  refine ⟨fun t ht => ?_, fun rest => ?_⟩
  · exact (List.mem_append.1 ht).elim (hu.scannable t) (hv.scannable t)
  · rw [List.append_assoc, hu.segments, hv.segments, List.map_append, List.append_assoc]

theorem mark (ht : t.isMark = true) (hne : t ≠ "\x7b") (hu : Clean u) : Clean (t :: u) :=
  cons (scannable_of_isMark ht) hne hu

theorem brace (hlead : lead u = "(") (hu : Clean u) : Clean ("\x7b" :: u) := by
  refine ⟨List.forall_mem_cons.2 ⟨scannable_of_isMark (by decide), hu.scannable⟩, ?_⟩
  intro rest
  have hne : u ≠ [] := by
    rintro rfl
    revert hlead
    decide
  rw [List.cons_append, segments_brace_paren ((lead_append hne rest).trans hlead), hu.segments,
    List.map_cons, List.cons_append]

theorem single (ht : t.isMark = true) (hne : t ≠ "\x7b") : Clean [t] := mark ht hne nil

theorem parenthesized (hu : Clean u) : Clean (parenthesized u) :=
  mark (by decide) (by decide) (hu.append (single (by decide) (by decide)))

theorem separated (ht : t.isMark = true) (hne : t ≠ "\x7b") (h : ∀ u ∈ us, Clean u) :
    Clean (separated t us) := by
  cases us with
  | nil => exact nil
  | cons u us =>
    obtain ⟨hu, hus⟩ := List.forall_mem_cons.1 h
    refine hu.append ?_
    clear hu h
    induction us with
    | nil => exact nil
    | cons v us ih =>
      obtain ⟨hv, hus⟩ := List.forall_mem_cons.1 hus
      rw [List.flatMap_cons]
      exact (mark ht hne hv).append (ih hus)

theorem operandList (ht : t.isMark = true) (hne : t ≠ "\x7b") (h : ∀ u ∈ us, Clean u) :
    Clean (operandList t us) := by
  refine separated ht hne ?_
  intro v hv
  obtain ⟨u, hu, rfl⟩ := List.mem_map.1 hv
  exact (h u hu).parenthesized

end Clean

end Token

open Token (Clean)

/-- The operators of a layout, as they stand between or before the arguments. -/
def Layout.marks : Layout → List Token
  | between op | chain op | behind op => [op]
  | index _ | bars | vector | matrix | set => []

theorem Layout.isMark_of_mem_marks : ∀ e ∈ Layout.table, ∀ t ∈ e.2.marks,
    Token.isMark t = true ∧ t ≠ "\x7b" := by
  decide

section Writing

variable {us vs : List (List Token)}

/-- What a layout writes is clean, if the arguments are. -/
theorem Layout.clean_write {op : String} {l : Layout} {xs : List Term}
    (hl : Layout.ofName? op = some l) (hadmits : l.admits xs = true)
    (hlength : us.length = xs.length) (h : ∀ u ∈ us, Clean u) : Clean (l.write us) := by
  have hmarks := Layout.isMark_of_mem_marks _ (Layout.mem_table_of_name hl)
  have hlist : Clean (operandList "," us) := .operandList (by decide) (by decide) h
  cases l with
  | between op =>
    obtain ⟨hmark, hne⟩ := hmarks op (List.mem_singleton.2 rfl)
    exact .operandList hmark hne h
  | chain op =>
    obtain ⟨hmark, hne⟩ := hmarks op (List.mem_singleton.2 rfl)
    exact .operandList hmark hne h
  | behind op =>
    obtain ⟨hmark, hne⟩ := hmarks op (List.mem_singleton.2 rfl)
    exact hlist.mark hmark hne
  | index n =>
    cases us with
    | nil =>
      obtain rfl := List.length_eq_zero_iff.1 hlength.symm
      cases hadmits
    | cons u us =>
      obtain ⟨hu, hus⟩ := List.forall_mem_cons.1 h
      have hlist : Clean (operandList "," us) := .operandList (by decide) (by decide) hus
      exact hu.parenthesized.append
        ((hlist.append (.single (by decide) (by decide))).mark (by decide) (by decide))
  | bars =>
    exact (hlist.append (.single (by decide) (by decide))).mark (by decide) (by decide)
  | vector =>
    exact (hlist.append (.single (by decide) (by decide))).mark (by decide) (by decide)
  | matrix =>
    have hrows : Clean (separated "," us) := .separated (by decide) (by decide) h
    exact (hrows.append (.single (by decide) (by decide))).mark (by decide) (by decide)
  | set =>
    refine .brace ?_ (hlist.append (.single (by decide) (by decide)))
    cases us with
    | nil =>
      obtain rfl := List.length_eq_zero_iff.1 hlength.symm
      cases hadmits
    | cons => rfl

theorem clean_writeCall {name : Token} (hname : name.isIdentifier = true)
    (hus : ∀ u ∈ us, Clean u) (hvs : ∀ v ∈ vs, Clean v) : Clean (writeCall name us vs) := by
  have hne : name ≠ "\x7b" := by
    rintro rfl
    revert hname
    decide
  have hargs : Clean (operandList "," us ++ [")"]) :=
    .append (.operandList (by decide) (by decide) hus) (.single (by decide) (by decide))
  have hdims : Clean (writeDimensions vs) := by
    unfold writeDimensions
    split
    · exact .nil
    · have hlist : Clean (operandList "," vs) := .operandList (by decide) (by decide) hvs
      exact (hlist.append (.single (by decide) (by decide))).mark (by decide) (by decide)
  exact .cons (Token.isWord_of_isIdentifier hname).scannable hne
    (hdims.append (hargs.mark (by decide) (by decide)))

end Writing

namespace Term.Printable

variable {ctx : Context} {spell : Leaf → Token} {x : Term}

theorem clean (hctx : ctx.WellNamed) (h : x.Printable ctx spell) : Clean (x.render spell) := by
  have hall {xs : List Term} (hxs : ∀ x ∈ xs, Clean (x.render spell)) :
      ∀ u ∈ xs.map (render spell), Clean u := by
    intro u hu
    obtain ⟨x, hx, rfl⟩ := List.mem_map.1 hu
    exact hxs x hx
  induction h with
  | @leaf l hl =>
    have hword := hl.isWord hctx
    refine .cons hword.scannable ?_ .nil
    intro hbrace
    rw [hbrace] at hword
    exact absurd (hword.2 '\x7b' (by decide)) (by decide)
  | layout hl hadmits _ ih =>
    rw [render_of_layout (Layout.ofNode?_eq_some.2 ⟨rfl, hl, hadmits⟩)]
    exact Layout.clean_write hl hadmits (List.length_map _) (hall ih)
  | @call name args dims _ _ hcount _ _ _ ihargs ihdims =>
    cases hlayout : Layout.ofNode? name args dims with
    | some l =>
      obtain ⟨_, hl, hadmits⟩ := Layout.ofNode?_eq_some.1 hlayout
      rw [render_of_layout hlayout]
      exact Layout.clean_write hl hadmits (List.length_map _) (hall ihargs)
    | none =>
      rw [render_of_call hlayout]
      have hfun : ctx.isFunction name = true := Context.isFunction_iff.2 ⟨_, hcount⟩
      exact clean_writeCall (hctx.isIdentifier_of_isFunction hfun) (hall ihargs) (hall ihdims)

end Term.Printable

/-- Without groups nothing is drawn, and the tokens stay as they are. -/
theorem Token.resolveSegments_literals {ρ : Type} (chooser : Chooser ρ) (ts : List Token)
    (random : ρ) :
    Token.resolveSegments chooser (ts.map .literal) random = (⟨ts, []⟩, random) := by
  simpa [resolveSegments] using resolveSegments_literals_append chooser ts [] random

namespace Expression

variable {ρ : Type}

/-- Parsing undoes printing. -/
theorem parse_render {ctx : Context} (hctx : ctx.WellNamed) {spell : Leaf → Token} {x : Term}
    (hx : x.Printable ctx spell) (chooser : Chooser ρ) (random : ρ) :
    (parse ctx .terms false chooser (" ".intercalate (x.render spell)) random ()).result =
      .ok x () := by
  have hclean := hx.clean hctx
  have hsegments : Token.segments (x.render spell ++ [Token.endMark]) =
      (x.render spell ++ [Token.endMark]).map .literal := by
    rw [hclean.segments, Token.segments_cons (by decide), Token.segments, List.map_append]
    rfl
  have htokens : (prepare ctx false chooser (" ".intercalate (x.render spell)) random).1.tokens =
      x.render spell ++ [Token.endMark] := by
    unfold prepare Token.scan Token.resolve
    rw [Token.words_intercalate hclean.scannable]
    dsimp only
    rw [if_neg Bool.false_ne_true, hsegments, Token.resolveSegments_literals]
  have hreads := (hx.readsBack hctx).1 [Token.endMark] (.of_mem (t := Token.endMark) (by decide))
  unfold parse
  dsimp only
  rw [htokens]
  exact (Grammar.read_eq_ok_iff ctx _ x).2 hreads

theorem parse_render_zeros :
    (parse Context.standard .terms false .first "( zeros < ( 2 ) > ( ) ) + ( x )" () ()).result =
      .ok (.node "+" [.node "zeros" [] [.leaf (.int 2)], .leaf (.var "x")] []) () := by
  let spell : Leaf → Token := fun l => if l = .var "x" then "x" else "2"
  have htwo : (Term.leaf (.int 2)).Printable Context.standard spell :=
    .leaf ⟨by decide, by decide, by decide⟩
  have hx : (Term.leaf (.var "x")).Printable Context.standard spell :=
    .leaf ⟨by decide, by decide, by decide, by decide, by decide⟩
  have hzeros : (Term.node "zeros" [] [.leaf (.int 2)]).Printable Context.standard spell :=
    .call (by decide) (by decide) (by decide) (by decide) (by simp) (by simpa using htwo)
  have hsum : (Term.node "+" [.node "zeros" [] [.leaf (.int 2)], .leaf (.var "x")]
      []).Printable Context.standard spell :=
    .layout (l := .chain "+") rfl rfl (by simpa using ⟨hzeros, hx⟩)
  have htext : " ".intercalate (Term.render spell (.node "+" [.node "zeros" [] [.leaf (.int 2)],
      .leaf (.var "x")] [])) = "( zeros < ( 2 ) > ( ) ) + ( x )" := by
    cbv
  rw [← htext]
  exact parse_render Context.wellNamed_standard hsum .first ()

end Expression

end TermReader
