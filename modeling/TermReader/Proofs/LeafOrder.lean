import TermReader.Proofs.Execution
import TermReader.Proofs.Derivation

/-!
No operand is lost, doubled or moved. The tokens that stand for leaves are the leaves
of the term that is read, in the same order, since every operator, bracket and call
keeps the order of its parts and no other token stands for a leaf.
-/

namespace TermReader

namespace Term

mutual

/-- The leaves of a term from left to right; dimensions stand before arguments. -/
def leaves : Term → List Leaf
  | leaf l => [l]
  | node _ args dims => leavesAll dims ++ leavesAll args

def leavesAll : List Term → List Leaf
  | [] => []
  | x :: xs => leaves x ++ leavesAll xs

end

variable {x : Term} {later : List (Token × Term)}

theorem leavesAll_eq_flatMap (xs : List Term) : leavesAll xs = xs.flatMap leaves := by
  induction xs with
  | nil => rfl
  | cons x xs ih => rw [leavesAll, ih, List.flatMap_cons]

@[simp] theorem leaves_leaf (l : Leaf) : (leaf l).leaves = [l] := by
  rw [leaves]

@[simp] theorem leaves_node (op : String) (args dims : List Term) :
    (node op args dims).leaves = dims.flatMap leaves ++ args.flatMap leaves := by
  rw [leaves, leavesAll_eq_flatMap, leavesAll_eq_flatMap]

/-- The leaves of the operands of a series. -/
def leavesLater (later : List (Token × Term)) : List Leaf := later.flatMap (·.2.leaves)

@[simp] theorem leaves_operands :
    (operands x later).flatMap leaves = x.leaves ++ leavesLater later := by
  rw [operands, List.flatMap_cons, List.flatMap_map]
  rfl

/-- A summand that is negated keeps its leaves. -/
theorem leaves_summand (y : Token × Term) : (summand y).leaves = y.2.leaves := by
  unfold summand
  split
  · simp
  · rfl

theorem leaves_ofSum : (ofSum x later).leaves = x.leaves ++ leavesLater later := by
  unfold ofSum
  split
  · next hnone =>
    rw [List.map_eq_nil_iff.1 hnone]
    simp [leavesLater]
  split
  · exact (leaves_node _ _ _).trans leaves_operands
  · simp [List.flatMap_map, leaves_summand, leavesLater]

/-- Division from the left appends the leaves of one operand after the other. -/
theorem leaves_foldl :
    (later.foldl (fun x y => node y.1 [x, y.2] []) x).leaves = x.leaves ++ leavesLater later := by
  induction later generalizing x with
  | nil => simp [leavesLater]
  | cons y later ih =>
    rw [List.foldl_cons, ih]
    simp [leavesLater]

theorem leaves_ofProduct : (ofProduct x later).leaves = x.leaves ++ leavesLater later := by
  unfold ofProduct
  split
  · next hnone =>
    rw [List.isEmpty_iff.1 hnone]
    simp [leavesLater]
  split
  · exact leaves_foldl
  · exact (leaves_node _ _ _).trans leaves_operands

end Term

/-- The leaves of an item from left to right. -/
def Item.leaves : (i : Item) → i.Value → List Leaf
  | one _, x => x.leaves
  | more _, later => Term.leavesLater later
  | dimensions, dims => dims.flatMap Term.leaves

namespace Context

/-- The leaf that a token stands for, if it is an operand by itself. -/
def leaf? (ctx : Context) (t : Token) : Option Leaf :=
  match ctx.opening t with
  | .leaf l => some l
  | _ => Option.none

/-- The leaves that the operands among the tokens stand for, in order. -/
def operandLeaves (ctx : Context) (ts : List Token) : List Leaf := ts.filterMap ctx.leaf?

variable {ctx : Context} {t : Token} {l : Leaf}

theorem leaf?_eq_some_iff : ctx.leaf? t = some l ↔ ctx.opening t = .leaf l := by
  unfold leaf?
  split
  · next h => rw [h, Option.some.injEq, Opening.leaf.injEq]
  · next h => simpa using h l

theorem operandLeaves_leaf (h : ctx.opening t = .leaf l) (ts : List Token) :
    ctx.operandLeaves (t :: ts) = l :: ctx.operandLeaves ts :=
  List.filterMap_cons_some (leaf?_eq_some_iff.2 h)

/-- A token that is no operand contributes no leaf. -/
theorem operandLeaves_cons (h : ∀ l, ctx.opening t ≠ .leaf l) (ts : List Token) :
    ctx.operandLeaves (t :: ts) = ctx.operandLeaves ts := by
  refine List.filterMap_cons_none (Option.eq_none_iff_forall_ne_some.2 fun l hl => ?_)
  exact h l (leaf?_eq_some_iff.1 hl)

/-- The name of a function is no operand. -/
theorem operandLeaves_call (h : ctx.opening t = .call) (ts : List Token) :
    ctx.operandLeaves (t :: ts) = ctx.operandLeaves ts :=
  operandLeaves_cons (fun l hl => by rw [h] at hl; cases hl) ts

/-- Operators, brackets and separators are no operands. -/
theorem WellNamed.operandLeaves_symbol (hctx : ctx.WellNamed) (ht : t.Symbolic)
    (ts : List Token) : ctx.operandLeaves (t :: ts) = ctx.operandLeaves ts := by
  refine operandLeaves_cons (fun l hl => ?_) ts
  rw [hctx.opening_of_symbolic ht] at hl
  unfold Opening.ofSymbol at hl
  grind

@[simp] theorem operandLeaves_nil : ctx.operandLeaves [] = [] := rfl

@[simp] theorem operandLeaves_append (u v : List Token) :
    ctx.operandLeaves (u ++ v) = ctx.operandLeaves u ++ ctx.operandLeaves v :=
  List.filterMap_append

end Context

/-- What is derived has the leaves of its operand tokens, in their order. -/
theorem Derives.leaves_eq {ctx : Context} (hctx : ctx.WellNamed) {i : Item} {u : List Token}
    {x : i.Value} (h : Derives ctx i u x) : i.leaves x = ctx.operandLeaves u := by
  have hsymbol {t : Token} (ht : t.Symbolic) (ts : List Token) :
      ctx.operandLeaves (t :: ts) = ctx.operandLeaves ts := hctx.operandLeaves_symbol ht ts
  -- every rule joins the leaves of its parts in order, and its own tokens contribute none
  induction h with
  | single _ ih | base _ ih | plain _ ih => exact ih
  | joined _ hop _ ihx ihy =>
    simp [Item.leaves, hsymbol (Tier.symbolic _ hop), ← ihx, ← ihy]
  | sum _ _ ihx ihlater => simp [Item.leaves, Term.leaves_ofSum, ← ihx, ← ihlater]
  | product _ _ ihx ihlater => simp [Item.leaves, Term.leaves_ofProduct, ← ihx, ← ihlater]
  | minus _ ih | not _ ih | paren _ ih | bar _ ih | vector _ _ ih | row _ ih =>
    simp (disch := decide) [Item.leaves, hsymbol, ← ih]
  | power _ _ ihx ihy | index1 _ _ ihx ihy | matrix _ _ ihx ihy | set _ _ ihx ihy
  | elements _ _ ihx ihy | dimensions _ _ ihx ihy =>
    simp (disch := decide) [Item.leaves, hsymbol, ← ihx, ← ihy]
  | index2 _ _ _ ihx ihi ihj =>
    simp (disch := decide) [Item.leaves, hsymbol, ← ihx, ← ihi, ← ihj]
  | leaf ht => simp [Item.leaves, Context.operandLeaves_leaf ht]
  | callNone ht _ _ ih =>
    simp (disch := decide) [Item.leaves, hsymbol, Context.operandLeaves_call ht, ← ih]
  | callSome ht _ _ _ _ ihdims ihx ihlater =>
    simp (disch := decide) [Item.leaves, hsymbol, Context.operandLeaves_call ht, ← ihdims, ← ihx,
      ← ihlater]
  | apply ht _ _ _ _ ih => simp [Item.leaves, Context.operandLeaves_call ht, ← ih]
  | empty => simp (disch := decide) [Item.leaves, hsymbol]
  | stop | noDimensions => rfl
  | step hop _ _ ihx ihlater =>
    simp [Item.leaves, Term.leavesLater, hsymbol (Series.symbolic _ hop), ← ihx, ← ihlater]
  | juxtaposed _ _ _ ihx ihlater =>
    simp [Item.leaves, Term.leavesLater, ← ihx, ← ihlater]

namespace Grammar

/-- The leaves of a term that is read are those of the operand tokens, in the order of
the input. -/
theorem leaves_of_read {ctx : Context} (hctx : ctx.WellNamed) {tokens : List Token} {x : Term}
    (h : read ctx .terms tokens () = .ok x ()) : x.leaves = ctx.operandLeaves tokens := by
  obtain ⟨u, rfl, hx⟩ := ((read_eq_ok_iff ctx tokens x).1 h).derives
  have hend := hctx.operandLeaves_symbol (t := Token.endMark) (by decide) []
  rw [Context.operandLeaves_append, hend, Context.operandLeaves_nil, List.append_nil]
  exact hx.leaves_eq hctx

/-- A dimension stands before the argument, as it does in the input. -/
theorem leaves_of_read_call :
    (Term.node "f" [.leaf (.var "a")] [.leaf (.int 3)]).leaves = [.int 3, .var "a"] := by
  let ctx : Context := ⟨"one", fun table => if table = .unary then ["f"] else []⟩
  have hctx : ctx.WellNamed := by
    intro table
    cases table <;> decide
  have hread : read ctx .terms ["f", "<", "3", ">", "(", "a", ")", Token.endMark] () =
      .ok (.node "f" [.leaf (.var "a")] [.leaf (.int 3)]) () := by
    cbv
  have hleaves := leaves_of_read hctx hread
  rwa [show ctx.operandLeaves ["f", "<", "3", ">", "(", "a", ")", Token.endMark] =
    [.int 3, .var "a"] by cbv] at hleaves

end Grammar

end TermReader
