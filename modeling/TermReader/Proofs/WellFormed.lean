import TermReader.Proofs.Execution
import TermReader.Proofs.Openings
import TermReader.Proofs.Derivation
import TermReader.Proofs.Layout
import TermReader.Expression

/-!
The shapes of the nodes that reading can make. Every operator of the grammar has a
fixed number of arguments or a least one, and no dimensions. All other nodes are
calls: their names are functions, and the function admits so many arguments. The
invariant holds of every item that is read, hence of every term that is returned.
-/

namespace TermReader

namespace Term

/-- The nodes that the grammar makes: operators and brackets without dimensions, and
calls. A function that also goes without arguments is called with none, or it is
applied to one operand and has no dimensions. -/
inductive Shape (ctx : Context) : String → List Term → List Term → Prop
  | layout {op args l} (hl : Layout.ofName? op = some l) (hargs : l.admits args = true) :
      Shape ctx op args []
  | call {name args dims} (hname : Token.isIdentifier name = true)
      (hfun : ctx.isFunction name = true) (hcount : args.length ∈ ctx.arities name)
      (hnone : 0 ∈ ctx.arities name → args = [] ∨ args.length = 1 ∧ dims = []) :
      Shape ctx name args dims

/-- Every node of the term has a shape of the grammar, and every leaf is formed. -/
inductive WellFormed (ctx : Context) : Term → Prop
  | leaf {l} (hleaf : l.Formed ctx) : WellFormed ctx (leaf l)
  | node {op args dims} (hshape : Shape ctx op args dims) (hargs : ∀ x ∈ args, WellFormed ctx x)
      (hdims : ∀ x ∈ dims, WellFormed ctx x) : WellFormed ctx (node op args dims)

variable {ctx : Context} {x : Term} {later : List (Token × Term)}

/-- A node with a layout has no dimensions. -/
theorem WellFormed.plain {op : String} {args : List Term} {l : Layout}
    (hl : Layout.ofName? op = some l) (hadmits : l.admits args = true)
    (hargs : ∀ x ∈ args, x.WellFormed ctx) : (Term.node op args []).WellFormed ctx :=
  .node (.layout hl hadmits) hargs fun _ h => absurd h List.not_mem_nil

theorem forall_operands {p : Term → Prop} (hx : p x) (hlater : ∀ y ∈ later, p y.2) :
    ∀ z ∈ operands x later, p z := by
  intro z hz
  rcases List.mem_cons.1 hz with rfl | hz
  · exact hx
  · obtain ⟨y, hy, rfl⟩ := List.mem_map.1 hz
    exact hlater y hy

theorem WellFormed.ofSum (hx : x.WellFormed ctx) (hlater : ∀ y ∈ later, y.2.WellFormed ctx) :
    (ofSum x later).WellFormed ctx := by
  unfold Term.ofSum
  split
  · exact hx
  · next hsome =>
    split
    · next hminus =>
      obtain ⟨⟨op, y⟩, rfl, rfl⟩ := List.map_eq_singleton_iff.1 hminus
      exact .plain rfl rfl (forall_operands hx hlater)
    · have hcount : 2 ≤ (x :: later.map summand).length := by
        have := List.length_pos_iff.2 (mt List.map_eq_nil_iff.2 hsome)
        simp only [List.length_cons, List.length_map]
        omega
      refine .plain (l := .chain "+") rfl (decide_eq_true hcount) ?_
      intro z hz
      rcases List.mem_cons.1 hz with rfl | hz
      · exact hx
      · obtain ⟨y, hy, rfl⟩ := List.mem_map.1 hz
        unfold summand
        split
        · exact .plain rfl rfl (by simpa using hlater y hy)
        · exact hlater y hy

/-- Division goes from the left, one operand at a time. -/
theorem WellFormed.foldl (hx : x.WellFormed ctx)
    (hlater : ∀ y ∈ later, y.1 ∈ ["*", "/"] ∧ y.2.WellFormed ctx) :
    (later.foldl (fun x y => Term.node y.1 [x, y.2] []) x).WellFormed ctx := by
  induction later generalizing x with
  | nil => exact hx
  | cons y later ih =>
    obtain ⟨hop, hy⟩ := hlater y List.mem_cons_self
    refine ih ?_ fun z hz => hlater z (List.mem_cons_of_mem _ hz)
    change (Term.node y.1 [x, y.2] []).WellFormed ctx
    simp only [List.mem_cons, List.not_mem_nil, or_false] at hop
    rcases hop with hop | hop
    · rw [hop]
      exact .plain rfl rfl (by simp [hx, hy])
    · rw [hop]
      exact .plain rfl rfl (by simp [hx, hy])

theorem WellFormed.ofProduct (hx : x.WellFormed ctx)
    (hlater : ∀ y ∈ later, y.1 ∈ ["*", "/"] ∧ y.2.WellFormed ctx) :
    (ofProduct x later).WellFormed ctx := by
  unfold Term.ofProduct
  split
  · exact hx
  · next hsome =>
    split
    · exact hx.foldl hlater
    · have hcount : 2 ≤ (operands x later).length := by
        have := List.length_pos_iff.2 (mt List.isEmpty_iff.2 hsome)
        simp only [operands, List.length_cons, List.length_map]
        omega
      exact .plain (l := .chain "*") rfl (decide_eq_true hcount)
        (forall_operands hx fun y hy => (hlater y hy).2)

end Term

/-- Products without an operator count as written with one. -/
theorem Series.operator_mem {k : Series} {t : Token} {j : Joint} (h : k.joint? t = some j) :
    j.operator ∈ k.operators := by
  rcases Series.of_joint? h with ⟨rfl, hop⟩ | ⟨rfl, rfl, _⟩
  · exact hop
  · decide

/-- What holds of the values of an item: rows and the elements of a bracket are
vectors, and operands come with operators of their series. -/
def Item.Sound (ctx : Context) : (i : Item) → i.Value → Prop
  | one p, x => x.WellFormed ctx ∧ (p = .row ∨ p = .elements → x.isVector = true)
  | more k, later => ∀ y ∈ later,
      y.1 ∈ k.operators ∧ y.2.WellFormed ctx ∧ (k = .rows → y.2.isVector = true)
  | dimensions, dims => ∀ x ∈ dims, x.WellFormed ctx

namespace Item.Sound

variable {ctx : Context} {x : Term}

theorem of_wellFormed {p : Phrase} (hx : x.WellFormed ctx) (hrow : p ≠ .row)
    (helements : p ≠ .elements) : (Item.one p).Sound ctx x :=
  ⟨hx, fun h => (h.elim hrow helements).elim⟩

theorem operands {k : Series} {later : List (Token × Term)}
    (hx : (Item.one k.operand).Sound ctx x) (hlater : (Item.more k).Sound ctx later) :
    ∀ z ∈ Term.operands x later, z.WellFormed ctx :=
  Term.forall_operands hx.1 fun y hy => (hlater y hy).2.1

end Item.Sound

/-- Each rule of reading keeps values well formed. -/
theorem Reads.sound {ctx : Context} (hctx : ctx.WellNamed) {i : Item} {ts rest : List Token}
    {x : i.Value} (h : Reads ctx i ts x rest) : i.Sound ctx x := by
  induction h with
  | single _ _ ih => exact .of_wellFormed ih.1 (by simp) (by simp)
  | joined _ hop _ ihx ihy =>
    exact .of_wellFormed (.plain (Layout.ofName?_of_mem hop) rfl (by simp [ihx.1, ihy.1]))
      (by simp) (by simp)
  | sum _ _ ihx ihlater =>
    exact .of_wellFormed (.ofSum ihx.1 fun y hy => (ihlater y hy).2.1) (by simp) (by simp)
  | product _ _ ihx ihlater =>
    refine .of_wellFormed (.ofProduct ihx.1 fun y hy => ?_) (by simp) (by simp)
    exact ⟨(ihlater y hy).1, (ihlater y hy).2.1⟩
  | base _ _ ih => exact .of_wellFormed ih.1 (by simp) (by simp)
  | power _ _ ihx ihy =>
    exact .of_wellFormed (.plain rfl rfl (by simp [ihx.1, ihy.1])) (by simp)
      (by simp)
  | minus _ ih =>
    exact .of_wellFormed (.plain rfl rfl (by simp [ih.1])) (by simp) (by simp)
  | not _ ih =>
    exact .of_wellFormed (.plain rfl rfl (by simp [ih.1])) (by simp) (by simp)
  | plain _ _ _ _ ih => exact .of_wellFormed ih.1 (by simp) (by simp)
  | index1 _ _ _ _ ihx ihi =>
    exact .of_wellFormed (.plain rfl rfl (by simp [ihx.1, ihi.1])) (by simp) (by simp)
  | index2 _ _ _ _ _ ihx ihi ihj =>
    exact .of_wellFormed (.plain rfl rfl (by simp [ihx.1, ihi.1, ihj.1])) (by simp) (by simp)
  | leaf ht => exact .of_wellFormed (.leaf (Context.formed_of_opening ht)) (by simp) (by simp)
  | paren _ _ ih => exact .of_wellFormed ih.1 (by simp) (by simp)
  | bar _ _ ih => exact .of_wellFormed (.plain rfl rfl (by simp [ih.1])) (by simp) (by simp)
  | vector _ _ _ ih => exact .of_wellFormed ih.1 (by simp) (by simp)
  | matrix _ _ _ ihx ihlater =>
    refine .of_wellFormed (.plain (l := .matrix) rfl ?_ ?_) (by simp) (by simp)
    · refine List.all_eq_true.2 ?_
      exact Term.forall_operands (ihx.2 (.inl rfl)) fun y hy => (ihlater y hy).2.2 rfl
    · exact Item.Sound.operands (k := .rows) ihx ihlater
  | set _ _ _ ihx ihlater =>
    refine .of_wellFormed (.plain rfl rfl ?_) (by simp) (by simp)
    exact Item.Sound.operands (k := .terms) ihx ihlater
  | callNone ht _ hcount ih =>
    have hfun := Context.isFunction_of_opening ht
    refine .of_wellFormed (.node ?_ (by simp) ih) (by simp) (by simp)
    exact .call (hctx.isIdentifier_of_isFunction hfun) hfun hcount fun _ => .inl rfl
  | callSome ht _ hsome _ _ hcount ihdims ihx ihlater =>
    have hfun := Context.isFunction_of_opening ht
    refine .of_wellFormed (.node ?_ ?_ ihdims) (by simp) (by simp)
    · exact .call (hctx.isIdentifier_of_isFunction hfun) hfun hcount fun h => absurd h hsome
    · exact Item.Sound.operands (k := .terms) ihx ihlater
  | apply ht _ _ hone _ ih =>
    have hfun := Context.isFunction_of_opening ht
    refine .of_wellFormed (.node ?_ (by simp [ih.1]) (by simp)) (by simp) (by simp)
    exact .call (hctx.isIdentifier_of_isFunction hfun) hfun hone fun _ => .inr ⟨rfl, rfl⟩
  | row _ ih => exact ⟨ih.1, fun _ => ih.2 (.inr rfl)⟩
  | empty => exact ⟨.plain rfl rfl (by simp), fun _ => rfl⟩
  | elements _ _ _ ihx ihlater =>
    refine ⟨.plain rfl rfl ?_, fun _ => rfl⟩
    exact Item.Sound.operands (k := .terms) ihx ihlater
  | stop => exact fun y hy => absurd hy List.not_mem_nil
  | @step k j _ _ _ _ _ hjoint _ _ ihx ihlater =>
    intro y hy
    rcases List.mem_cons.1 hy with rfl | hy
    · refine ⟨Series.operator_mem hjoint, ihx.1, ?_⟩
      rintro rfl
      exact ihx.2 (.inl rfl)
    · exact ihlater y hy
  | noDimensions => exact fun x hx => absurd hx List.not_mem_nil
  | dimensions _ _ ihx ihlater => exact Item.Sound.operands (k := .dimensions) ihx ihlater

namespace Expression

variable {ρ : Type}

/-- Whatever term an expression has, each of its nodes is one that the grammar makes. -/
theorem wellFormed_of_parse {ctx : Context} (hctx : ctx.WellNamed) (splits : Bool)
    (chooser : Chooser ρ) (source : String) (random : ρ) {x : Term}
    (h : (parse ctx .terms splits chooser source random ()).result = .ok x ()) :
    x.WellFormed ctx :=
  (((Grammar.read_eq_ok_iff ctx _ x).1 h).sound hctx).1

theorem wellFormed_matrix :
    (Term.node "matrix" [.node "vec" [.leaf (.int 1), .leaf (.var "x")] []] []).WellFormed
      (Context.empty "none") :=
  wellFormed_of_parse (fun _ _ h => absurd h List.not_mem_nil) true .first "[[1, x]]" () (by cbv)

/-- Vectors and absolute values are no operators by a symbol of their own, and their
names need not be functions of the context. -/
theorem vec_and_abs_are_no_functions :
    ((parse Context.standard .terms true .first "[1]" () ()).result =
        .ok (.node "vec" [.leaf (.int 1)] []) () ∧
      Context.standard.isFunction "vec" = false) ∧
    ((parse (Context.empty "none") .terms true .first "|x|" () ()).result =
        .ok (.node "abs" [.leaf (.var "x")] []) () ∧
      (Context.empty "none").isFunction "abs" = false) ∧
    ∀ op ∈ ["vec", "abs"], op ∉ ["||", "&&", "==", "!=", "<", "<=", ">", ">=", "-", "/", "^", "+",
      "*", ".-", "!", "index1", "index2", "matrix", "set"] :=
  ⟨⟨by cbv, by decide⟩, ⟨by cbv, by decide⟩, by decide⟩

end Expression

end TermReader
