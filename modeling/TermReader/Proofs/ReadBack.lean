import TermReader.Proofs.Readable

/-!
The reader takes the tokens of a rendered term as a whole, whatever closing token
follows, and makes the same term of them. There is one lemma for each layout, and
the terms follow by induction.
-/

namespace TermReader

/-- A sum without subtractions adds all summands at once. -/
theorem Term.ofSum_plus (x y : Term) (xs : List Term) :
    Term.ofSum x ((y :: xs).map ("+", ·)) = .node "+" (x :: y :: xs) [] := by
  have hsummand : Term.summand ∘ (fun z : Term => (("+" : Token), z)) = id := rfl
  unfold Term.ofSum
  simp [hsummand, Term.summand]

/-- A product without divisions multiplies all factors at once. -/
theorem Term.ofProduct_times (x y : Term) (xs : List Term) :
    Term.ofProduct x ((y :: xs).map ("*", ·)) = .node "*" (x :: y :: xs) [] := by
  unfold Term.ofProduct
  simp [Function.comp_def]

section Layouts

variable {ctx : Context} {u v w : List Token} {us : List (List Token)} {x y z : Term}
  {xs : List Term}

theorem readable_tier (hctx : ctx.WellNamed) {t : Tier} {op : Token} (hop : op ∈ t.operators)
    (hx : Readable ctx .term u x) (hy : Readable ctx .term v y) :
    Readable ctx .term (operandList op [u, v]) (.node op [x, y] []) := by
  intro rest hstop
  have htier := hstop.mono (Phrase.Under.tier_term t).rank_le
  have hleft := hx.parenthesized hctx (Phrase.Under.primary_operand t)
    (op :: (parenthesized v ++ rest)) (.of_starts (k := .tier t) (.inl hop) t.rank_operand_lt)
  have hright := hy.parenthesized hctx (Phrase.Under.primary_operand t) rest
    (htier.mono t.rank_operand_lt.le)
  have hjoined := (Reads.joined hleft hop hright).climb hctx (Phrase.Under.tier_term t) hstop
  simpa [operandList, separated] using hjoined

theorem readable_sum (hctx : ctx.WellNamed) {op : Token} (hop : op ∈ ["+", "-"])
    (hx : Readable ctx .term u x) (h : List.Forall₂ (Readable ctx .term) us xs) :
    Readable ctx .term (operandList op (u :: us)) (.ofSum x (xs.map (op, ·))) := by
  intro rest hstop
  have hsum : Phrase.sum.Stops (lead rest) := hstop.mono Phrase.Under.sum_term.rank_le
  obtain ⟨ts, hfirst, hlater⟩ := Reads.series_of_readable (k := .summands)
    (Series.joint?_of_mem hop) (.of_starts (k := .chain .summands) (.inl hop) (by decide))
    (hx.parenthesized hctx Phrase.Under.primary_product)
    (Readable.forall₂_parenthesized hctx h Phrase.Under.primary_product)
    (hsum.mono (by decide)) (Phrase.Stops.joint?_eq_none (k := .summands) hsum)
  exact (Reads.sum hfirst hlater).climb hctx Phrase.Under.sum_term hstop

theorem readable_product (hctx : ctx.WellNamed) {op : Token} (hop : op ∈ ["*", "/"])
    (hx : Readable ctx .term u x) (h : List.Forall₂ (Readable ctx .term) us xs) :
    Readable ctx .term (operandList op (u :: us)) (.ofProduct x (xs.map (op, ·))) := by
  intro rest hstop
  have hproduct : Phrase.product.Stops (lead rest) :=
    hstop.mono Phrase.Under.product_term.rank_le
  have hpower : Phrase.primary.Under .power := .power (.unary .refl)
  obtain ⟨ts, hfirst, hlater⟩ := Reads.series_of_readable (k := .factors)
    (Series.joint?_of_mem hop)
    (.of_starts (k := .chain .factors) (.inl (List.mem_append_left ["("] hop)) (by decide))
    (hx.parenthesized hctx hpower) (Readable.forall₂_parenthesized hctx h hpower)
    (hproduct.mono (by decide)) (Phrase.Stops.joint?_eq_none (k := .factors) hproduct)
  exact (Reads.product hfirst hlater).climb hctx Phrase.Under.product_term hstop

theorem readable_power (hctx : ctx.WellNamed) (hx : Readable ctx .term u x)
    (hy : Readable ctx .term v y) :
    Readable ctx .term (operandList "^" [u, v]) (.node "^" [x, y] []) := by
  intro rest hstop
  have hunary : Phrase.primary.Under .unary := .unary .refl
  have hbase := hx.parenthesized hctx hunary ("^" :: (parenthesized v ++ rest))
    (.of_starts (k := .power) (t := "^") (.inl (by decide)) (by decide))
  have hexponent := hy.parenthesized hctx hunary rest (hstop.mono (by decide))
  have hpower := (Reads.power hbase hexponent).climb hctx Phrase.Under.power_term hstop
  simpa [operandList, separated] using hpower

theorem readable_minus (hctx : ctx.WellNamed) (hx : Readable ctx .term u x) :
    Readable ctx .term ("-" :: operandList "," [u]) (.node ".-" [x] []) := by
  intro rest hstop
  have hoperand := hx.parenthesized hctx Phrase.Under.primary_product rest
    (hstop.mono (by decide))
  have hminus := (Reads.minus hoperand).climb hctx Phrase.Under.unary_term hstop
  simpa [operandList, separated] using hminus

theorem readable_not (hctx : ctx.WellNamed) (hx : Readable ctx .term u x) :
    Readable ctx .term ("!" :: operandList "," [u]) (.node "!" [x] []) := by
  intro rest hstop
  have hoperand := hx.reads_parenthesized hctx rest
  have hnot := (Reads.not hoperand).climb hctx Phrase.Under.unary_term hstop
  simpa [operandList, separated] using hnot

/-- In front of parentheses stands neither sign. -/
theorem lead_parenthesized (u rest : List Token) :
    lead (parenthesized u ++ rest) ≠ "-" ∧ lead (parenthesized u ++ rest) ≠ "!" :=
  ⟨(by decide : "(" ≠ "-"), (by decide : "(" ≠ "!")⟩

theorem readable_index1 (hctx : ctx.WellNamed) (hx : Readable ctx .term u x)
    (hy : Readable ctx .term v y) :
    Readable ctx .term ((Layout.index 1).write [u, v]) (.node "index1" [x, y] []) := by
  intro rest hstop
  obtain ⟨hminus, hnot⟩ := lead_parenthesized u ("[" :: (parenthesized v ++ "]" :: rest))
  have hbase := hx.reads_parenthesized hctx ("[" :: (parenthesized v ++ "]" :: rest))
  have hindex := hy.parenthesized hctx Phrase.Under.primary_term ("]" :: rest)
    (.of_mem (t := "]") (by decide))
  have hindex1 := (Reads.index1 hminus hnot hbase hindex).climb hctx Phrase.Under.unary_term hstop
  simpa [Layout.write, operandList, separated] using hindex1

theorem readable_index2 (hctx : ctx.WellNamed) (hx : Readable ctx .term u x)
    (hy : Readable ctx .term v y) (hz : Readable ctx .term w z) :
    Readable ctx .term ((Layout.index 2).write [u, v, w]) (.node "index2" [x, y, z] []) := by
  intro rest hstop
  have hsecond := hz.parenthesized hctx Phrase.Under.primary_term ("]" :: rest)
    (.of_mem (t := "]") (by decide))
  have hfirst := hy.parenthesized hctx Phrase.Under.primary_term
    ("," :: (parenthesized w ++ "]" :: rest)) (.of_mem (t := ",") (by decide))
  have hbase := hx.reads_parenthesized hctx
    ("[" :: (parenthesized v ++ "," :: (parenthesized w ++ "]" :: rest)))
  obtain ⟨hminus, hnot⟩ := lead_parenthesized u
    ("[" :: (parenthesized v ++ "," :: (parenthesized w ++ "]" :: rest)))
  have hindex2 :=
    (Reads.index2 hminus hnot hbase hfirst hsecond).climb hctx Phrase.Under.unary_term hstop
  simpa [Layout.write, operandList, separated] using hindex2

theorem readable_bars (hctx : ctx.WellNamed) (hx : Readable ctx .term u x) :
    Readable ctx .term (Layout.bars.write [u]) (.node "abs" [x] []) := by
  intro rest hstop
  have hbody := hx.parenthesized hctx Phrase.Under.primary_term ("|" :: rest)
    (.of_mem (t := "|") (by decide))
  have hopening : ctx.opening "|" = .bar := hctx.opening_of_symbolic (by decide)
  have hbars := (Reads.bar hopening hbody).climb hctx Phrase.Under.primary_term hstop
  simpa [Layout.write, operandList, separated] using hbars

/-- Operands between brackets are read up to the closing one. -/
theorem Reads.terms_of_readable (hctx : ctx.WellNamed) {b : Token}
    (hx : Readable ctx .term u x) (h : List.Forall₂ (Readable ctx .term) us xs)
    (hb : b ∈ [")", "]", "\x7d"]) (rest : List Token) :
    ∃ ts, Reads ctx (.one .term) (operandList "," (u :: us) ++ b :: rest) x ts ∧
      Reads ctx (.more .terms) ts (xs.map (",", ·)) (b :: rest) := by
  have hcomma : b ≠ "," := by
    revert b
    decide
  have hstops : Phrase.term.Stops b := .of_mem (by revert b; decide)
  exact Reads.list_of_readable (k := .terms) rfl
    (hx.parenthesized hctx Phrase.Under.primary_term)
    (Readable.forall₂_parenthesized hctx h Phrase.Under.primary_term) hstops hcomma rest

theorem reads_elements (hctx : ctx.WellNamed) (h : List.Forall₂ (Readable ctx .term) us xs)
    (rest : List Token) :
    Reads ctx (.one .elements) (operandList "," us ++ "]" :: rest) (.node "vec" xs []) rest := by
  cases h with
  | nil => exact .empty
  | cons hx h =>
    obtain ⟨ts, hfirst, hlater⟩ :=
      Reads.terms_of_readable hctx hx h (b := "]") (by decide) rest
    rw [← Term.operands_map _ _ ","]
    exact .elements (by decide : "(" ≠ "]") hfirst hlater

theorem readsBack_vector (hctx : ctx.WellNamed) (h : List.Forall₂ (Readable ctx .term) us xs) :
    ReadsBack ctx (Layout.vector.write us) (.node "vec" xs []) := by
  have hopening : ctx.opening "[" = .bracket := hctx.opening_of_symbolic (by decide)
  constructor
  · intro rest hstop
    have hrow : lead (operandList "," us ++ "]" :: rest) ≠ "[" := by
      cases us with
      | nil => exact (by decide : "]" ≠ "[")
      | cons => exact (by decide : "(" ≠ "[")
    have hvector := (Reads.vector hopening hrow (reads_elements hctx h rest)).climb hctx
      Phrase.Under.primary_term hstop
    simpa [Layout.write] using hvector
  · intro _ rest _
    have hrow := Reads.row (reads_elements hctx h rest)
    simpa [Layout.write] using hrow

theorem readable_matrix (hctx : ctx.WellNamed) (hx : Readable ctx .row u x)
    (h : List.Forall₂ (Readable ctx .row) us xs) :
    Readable ctx .term (Layout.matrix.write (u :: us)) (.node "matrix" (x :: xs) []) := by
  intro rest hstop
  have hopening : ctx.opening "[" = .bracket := hctx.opening_of_symbolic (by decide)
  obtain ⟨ts, hfirst, hlater⟩ := Reads.list_of_readable (k := .rows) (b := "]") rfl hx h
    (.of_mem (by decide)) (by decide) rest
  have hmatrix := (Reads.matrix hopening hfirst hlater).climb hctx Phrase.Under.primary_term hstop
  rw [Term.operands_map] at hmatrix
  simpa [Layout.write] using hmatrix

theorem readable_set (hctx : ctx.WellNamed) (hx : Readable ctx .term u x)
    (h : List.Forall₂ (Readable ctx .term) us xs) :
    Readable ctx .term (Layout.set.write (u :: us)) (.node "set" (x :: xs) []) := by
  intro rest hstop
  have hopening : ctx.opening "\x7b" = .brace := hctx.opening_of_symbolic (by decide)
  obtain ⟨ts, hfirst, hlater⟩ :=
    Reads.terms_of_readable hctx hx h (b := "\x7d") (by decide) rest
  have hset := (Reads.set hopening hfirst hlater).climb hctx Phrase.Under.primary_term hstop
  rw [Term.operands_map] at hset
  simpa [Layout.write] using hset

theorem reads_dimensions (hctx : ctx.WellNamed) (h : List.Forall₂ (Readable ctx .term) us xs)
    (rest : List Token) :
    Reads ctx .dimensions (writeDimensions us ++ "(" :: rest) xs ("(" :: rest) := by
  cases h with
  | nil => exact .noDimensions (by decide : "(" ≠ "<")
  | cons hx h =>
    have hunary : Phrase.primary.Under .unary := .unary .refl
    obtain ⟨ts, hfirst, hlater⟩ := Reads.list_of_readable (k := .dimensions) (b := ">") rfl
      (hx.parenthesized hctx hunary) (Readable.forall₂_parenthesized hctx h hunary)
      (.of_starts (k := .tier .relation) (.inl (by decide)) (by decide)) (by decide) ("(" :: rest)
    have hdims := Reads.dimensions hfirst hlater
    rw [Term.operands_map] at hdims
    simpa [writeDimensions, operandList] using hdims

theorem readable_call (hctx : ctx.WellNamed) {name : Token} {vs : List (List Token)}
    {dims : List Term} (hname : ctx.opening name = .call)
    (hcount : xs.length ∈ ctx.arities name) (hnone : 0 ∈ ctx.arities name → xs = [])
    (h : List.Forall₂ (Readable ctx .term) us xs)
    (hdims : List.Forall₂ (Readable ctx .term) vs dims) :
    Readable ctx .term (writeCall name us vs) (.node name xs dims) := by
  intro rest hstop
  unfold writeCall
  rw [List.cons_append, List.append_assoc, List.cons_append, List.append_assoc]
  refine Reads.climb hctx ?_ Phrase.Under.primary_term hstop
  cases h with
  | nil => exact .callNone hname (reads_dimensions hctx hdims _) hcount
  | cons hx h =>
    have hsome : 0 ∉ ctx.arities name := fun hzero => List.cons_ne_nil _ _ (hnone hzero)
    obtain ⟨ts, hfirst, hlater⟩ :=
      Reads.terms_of_readable hctx hx h (b := ")") (by decide) rest
    rw [← Term.operands_map _ _ ","] at hcount ⊢
    exact .callSome hname (reads_dimensions hctx hdims _) hsome hfirst hlater hcount

theorem readable_between (hctx : ctx.WellNamed) {op op' : Token}
    (hl : (op, Layout.between op') ∈ Layout.table) (hx : Readable ctx .term u x)
    (hy : Readable ctx .term v y) :
    Readable ctx .term ((Layout.between op').write [u, v]) (.node op [x, y] []) := by
  have hys : List.Forall₂ (Readable ctx .term) [v] [y] := .cons hy .nil
  simp only [Layout.table, List.mem_cons, Prod.mk.injEq, Layout.between.injEq, reduceCtorEq,
    and_false, List.not_mem_nil, or_false] at hl
  rcases hl with ⟨rfl, rfl⟩ | ⟨rfl, rfl⟩ | ⟨rfl, rfl⟩ | ⟨rfl, rfl⟩ | ⟨rfl, rfl⟩ | ⟨rfl, rfl⟩ |
    ⟨rfl, rfl⟩ | ⟨rfl, rfl⟩ | ⟨rfl, rfl⟩ | ⟨rfl, rfl⟩ | ⟨rfl, rfl⟩
  · exact readable_tier (t := .disjunction) hctx (by decide) hx hy
  · exact readable_tier (t := .conjunction) hctx (by decide) hx hy
  · exact readable_tier (t := .equality) hctx (by decide) hx hy
  · exact readable_tier (t := .equality) hctx (by decide) hx hy
  · exact readable_tier (t := .relation) hctx (by decide) hx hy
  · exact readable_tier (t := .relation) hctx (by decide) hx hy
  · exact readable_tier (t := .relation) hctx (by decide) hx hy
  · exact readable_tier (t := .relation) hctx (by decide) hx hy
  · exact readable_sum hctx (by decide) hx hys
  · exact readable_product hctx (by decide) hx hys
  · exact readable_power hctx hx hy

theorem readable_chain (hctx : ctx.WellNamed) {op op' : Token}
    (hl : (op, Layout.chain op') ∈ Layout.table) (hx : Readable ctx .term u x)
    (hy : Readable ctx .term v y) (h : List.Forall₂ (Readable ctx .term) us xs) :
    Readable ctx .term ((Layout.chain op').write (u :: v :: us)) (.node op (x :: y :: xs) []) := by
  simp only [Layout.table, List.mem_cons, Prod.mk.injEq, Layout.chain.injEq, reduceCtorEq,
    and_false, List.not_mem_nil, or_false, false_or] at hl
  rcases hl with ⟨rfl, rfl⟩ | ⟨rfl, rfl⟩
  · have hplus : "+" ∈ ["+", "-"] := by decide
    have hsum := readable_sum hctx hplus hx (.cons hy h)
    rwa [Term.ofSum_plus] at hsum
  · have htimes : "*" ∈ ["*", "/"] := by decide
    have hproduct := readable_product hctx htimes hx (.cons hy h)
    rwa [Term.ofProduct_times] at hproduct

theorem readable_behind (hctx : ctx.WellNamed) {op symbol : Token}
    (hl : (op, Layout.behind symbol) ∈ Layout.table) (hx : Readable ctx .term u x) :
    Readable ctx .term ((Layout.behind symbol).write [u]) (.node op [x] []) := by
  simp only [Layout.table, List.mem_cons, Prod.mk.injEq, Layout.behind.injEq, reduceCtorEq,
    and_false, List.not_mem_nil, or_false, false_or] at hl
  rcases hl with ⟨rfl, rfl⟩ | ⟨rfl, rfl⟩
  · exact readable_minus hctx hx
  · exact readable_not hctx hx

theorem readable_index (hctx : ctx.WellNamed) {op : Token} {n : Nat}
    (hl : (op, Layout.index n) ∈ Layout.table) (hcount : xs.length = n + 1)
    (h : List.Forall₂ (Readable ctx .term) us xs) :
    Readable ctx .term ((Layout.index n).write us) (.node op xs []) := by
  simp only [Layout.table, List.mem_cons, Prod.mk.injEq, Layout.index.injEq, reduceCtorEq,
    and_false, List.not_mem_nil, or_false, false_or] at hl
  rcases hl with ⟨rfl, rfl⟩ | ⟨rfl, rfl⟩
  · obtain ⟨x, y, rfl⟩ := List.length_eq_two.1 hcount
    obtain _ | ⟨hx, _ | ⟨hy, _ | _⟩⟩ := h
    exact readable_index1 hctx hx hy
  · obtain ⟨x, y, z, rfl⟩ := List.length_eq_three.1 hcount
    obtain _ | ⟨hx, _ | ⟨hy, _ | ⟨hz, _ | _⟩⟩⟩ := h
    exact readable_index2 hctx hx hy hz

/-- What a layout writes is read back, if the arguments are. -/
theorem Layout.readsBack (hctx : ctx.WellNamed) {op : String} {l : Layout}
    (hl : Layout.ofName? op = some l) (hadmits : l.admits xs = true)
    (h : List.Forall₂ (ReadsBack ctx) us xs) : ReadsBack ctx (l.write us) (.node op xs []) := by
  have hterm : List.Forall₂ (Readable ctx .term) us xs := h.imp fun _ _ hx => hx.1
  have hmem := Layout.mem_table_of_name hl
  obtain ⟨habs, hvec, hmatrix, hset⟩ := Layout.eq_of_mem_table _ hmem
  -- only a vector can be read as a row as well
  by_cases hl' : l = .vector
  · subst hl'
    obtain rfl := hvec.1 rfl
    exact readsBack_vector hctx hterm
  refine .of_ne_vec ?_ fun hop => hl' (hvec.2 hop)
  cases l with
  | between =>
    obtain ⟨x, y, rfl⟩ := List.length_eq_two.1 (beq_iff_eq.1 hadmits)
    obtain _ | ⟨hx, _ | ⟨hy, _ | _⟩⟩ := hterm
    exact readable_between hctx hmem hx hy
  | chain =>
    have hcount := of_decide_eq_true hadmits
    rcases hterm with _ | ⟨hx, _ | ⟨hy, hterm⟩⟩
    · simp at hcount
    · simp at hcount
    · exact readable_chain hctx hmem hx hy hterm
  | behind =>
    obtain ⟨x, rfl⟩ := List.length_eq_one_iff.1 (beq_iff_eq.1 hadmits)
    obtain _ | ⟨hx, _ | _⟩ := hterm
    exact readable_behind hctx hmem hx
  | index n => exact readable_index hctx hmem (beq_iff_eq.1 hadmits) hterm
  | bars =>
    obtain rfl := habs rfl
    obtain ⟨x, rfl⟩ := List.length_eq_one_iff.1 (beq_iff_eq.1 hadmits)
    obtain _ | ⟨hx, _ | _⟩ := hterm
    exact readable_bars hctx hx
  | vector => exact absurd rfl hl'
  | matrix =>
    obtain rfl := hmatrix rfl
    simp only [Layout.admits, Bool.and_eq_true, List.all_eq_true] at hadmits
    cases ReadsBack.forall₂_row h hadmits.2 with
    | nil => simp at hadmits
    | cons hx hrows => exact readable_matrix hctx hx hrows
  | set =>
    obtain rfl := hset rfl
    cases hterm with
    | nil => simp [Layout.admits] at hadmits
    | cons hx hterm => exact readable_set hctx hx hterm

end Layouts

namespace Term.Printable

variable {ctx : Context} {spell : Leaf → Token} {x : Term}

theorem opening_of_call (hctx : ctx.WellNamed) {name : String} {n : Nat}
    (hname : name ∉ Token.constants) (hirr : ctx.isIrrational name = false)
    (hcount : n ∈ ctx.arities name) : ctx.opening name = .call := by
  have hfun : ctx.isFunction name = true := Context.isFunction_iff.2 ⟨n, hcount⟩
  rw [Context.opening_of_isIdentifier (hctx.isIdentifier_of_isFunction hfun) hname,
    if_neg (Bool.eq_false_iff.1 hirr), if_pos hfun]

/-- The tokens of a term are read back as the term. -/
theorem readsBack (hctx : ctx.WellNamed) (h : x.Printable ctx spell) :
    ReadsBack ctx (x.render spell) x := by
  have hall {xs : List Term} (hxs : ∀ x ∈ xs, ReadsBack ctx (x.render spell) x) :
      List.Forall₂ (ReadsBack ctx) (xs.map (render spell)) xs :=
    List.forall₂_map_left_iff.2 (List.forall₂_same.2 hxs)
  induction h with
  | @leaf l hl =>
    refine ⟨?_, fun hvec => Bool.noConfusion hvec⟩
    intro rest hstop
    exact (Reads.leaf (hl.opening hctx)).climb hctx Phrase.Under.primary_term hstop
  | layout hl hadmits _ ih =>
    rw [render_of_layout (Layout.ofNode?_eq_some.2 ⟨rfl, hl, hadmits⟩)]
    exact Layout.readsBack hctx hl hadmits (hall ih)
  | @call name args dims hname hirr hcount hnone _ _ ihargs ihdims =>
    cases hlayout : Layout.ofNode? name args dims with
    | some l =>
      obtain ⟨rfl, hl, hadmits⟩ := Layout.ofNode?_eq_some.1 hlayout
      rw [render_of_layout hlayout]
      exact Layout.readsBack hctx hl hadmits (hall ihargs)
    | none =>
      rw [render_of_call hlayout]
      constructor
      · exact readable_call hctx (opening_of_call hctx hname hirr hcount) hcount hnone
          ((hall ihargs).imp fun _ _ hx => hx.1) ((hall ihdims).imp fun _ _ hx => hx.1)
      · intro hvec
        rw [Layout.ofNode?_of_isVector hvec] at hlayout
        cases hlayout

end Term.Printable

end TermReader
