import TermReader.Proofs.Layout
import TermReader.Proofs.Spelling

/-!
Terms written as tokens. Every operand, argument, dimension and element stands in
parentheses, only the rows of a matrix do not, so nothing depends on how tightly an
operator binds.
-/

namespace TermReader

/-- An operand in parentheses. -/
def parenthesized (u : List Token) : List Token := "(" :: (u ++ [")"])

/-- Parts with a token between any two of them. -/
def separated (sep : Token) : List (List Token) → List Token
  | [] => []
  | u :: us => u ++ us.flatMap (sep :: ·)

/-- Operands in parentheses with a token between any two of them. -/
def operandList (sep : Token) (us : List (List Token)) : List Token :=
  separated sep (us.map parenthesized)

/-- Writes a node, given how its arguments are written. -/
def Layout.write (us : List (List Token)) : Layout → List Token
  | between op => operandList op us
  | chain op => operandList op us
  | behind symbol => symbol :: operandList "," us
  | index _ => parenthesized (us.headD []) ++ "[" :: (operandList "," us.tail ++ ["]"])
  | bars => "|" :: (operandList "," us ++ ["|"])
  | vector => "[" :: (operandList "," us ++ ["]"])
  | matrix => "[" :: (separated "," us ++ ["]"])
  | set => "\x7b" :: (operandList "," us ++ ["\x7d"])

/-- Writes the dimensions of a call, if there are any. -/
def writeDimensions (vs : List (List Token)) : List Token :=
  if vs.isEmpty then [] else "<" :: (operandList "," vs ++ [">"])

/-- Writes a call, given how its arguments and dimensions are written. -/
def writeCall (name : Token) (us vs : List (List Token)) : List Token :=
  name :: (writeDimensions vs ++ "(" :: (operandList "," us ++ [")"]))

/-- The layout of a node. A node that fits none is a call. -/
def Layout.ofNode? (op : String) (args dims : List Term) : Option Layout :=
  if dims.isEmpty then (ofName? op).filter (·.admits args) else none

namespace Term

mutual

/-- The tokens of a term, given how its leaves are spelled. -/
def render (spell : Leaf → Token) : Term → List Token
  | leaf l => [spell l]
  | node op args dims =>
    match Layout.ofNode? op args dims with
    | some l => l.write (renderAll spell args)
    | none => writeCall op (renderAll spell args) (renderAll spell dims)

def renderAll (spell : Leaf → Token) : List Term → List (List Token)
  | [] => []
  | x :: xs => render spell x :: renderAll spell xs

end

@[simp] theorem renderAll_eq_map (spell : Leaf → Token) (xs : List Term) :
    renderAll spell xs = xs.map (render spell) := by
  induction xs with
  | nil => rfl
  | cons x xs ih => rw [renderAll, ih, List.map_cons]

variable {spell : Leaf → Token} {op : String} {args dims : List Term}

theorem render_of_layout {l : Layout} (h : Layout.ofNode? op args dims = some l) :
    (node op args dims).render spell = l.write (args.map (render spell)) := by
  rw [render, h, renderAll_eq_map]

theorem render_of_call (h : Layout.ofNode? op args dims = none) :
    (node op args dims).render spell =
      writeCall op (args.map (render spell)) (dims.map (render spell)) := by
  rw [render, h, renderAll_eq_map, renderAll_eq_map]

end Term

theorem Layout.ofNode?_eq_some {op : String} {args dims : List Term} {l : Layout} :
    Layout.ofNode? op args dims = some l ↔
      dims = [] ∧ Layout.ofName? op = some l ∧ l.admits args = true := by
  unfold Layout.ofNode?
  by_cases hdims : dims = []
  · simp [hdims, Option.filter_eq_some_iff]
  · simp [hdims]

theorem Layout.ofNode?_of_isVector {op : String} {args dims : List Term}
    (h : (Term.node op args dims).isVector = true) :
    Layout.ofNode? op args dims = some .vector := by
  obtain ⟨hop, hdims⟩ := Bool.and_eq_true_iff.1 h
  rw [beq_iff_eq.1 hop]
  exact Layout.ofNode?_eq_some.2 ⟨List.isEmpty_iff.1 hdims, rfl, rfl⟩

/-- The terms that can be written: leaves as they are spelled, operators and brackets
with as many arguments as they take and no dimensions, and calls. The name of a call
is no constant, and a function that goes without arguments is given none. -/
inductive Term.Printable (ctx : Context) (spell : Leaf → Token) : Term → Prop
  | leaf {l} (hl : l.Spelled ctx (spell l)) : Printable ctx spell (leaf l)
  | layout {op args l} (hl : Layout.ofName? op = some l) (hadmits : l.admits args = true)
      (hargs : ∀ x ∈ args, Printable ctx spell x) : Printable ctx spell (node op args [])
  | call {name args dims} (hname : name ∉ Token.constants)
      (hirr : ctx.isIrrational name = false) (hcount : args.length ∈ ctx.arities name)
      (hnone : 0 ∈ ctx.arities name → args = []) (hargs : ∀ x ∈ args, Printable ctx spell x)
      (hdims : ∀ x ∈ dims, Printable ctx spell x) : Printable ctx spell (node name args dims)

end TermReader
