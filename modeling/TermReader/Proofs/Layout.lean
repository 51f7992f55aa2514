import TermReader.Grammar.Phrase
import Mathlib.Tactic.Common

/-!
Nodes that are no calls stand for operators and brackets of the grammar. Each name
of such a node has one layout, which fixes how many arguments the node has and how
it is written. The names of layouts with brackets are no keywords, so a context may
give them to functions as well.
-/

namespace TermReader

/-- The node of a vector: any number of elements and no dimensions. -/
def Term.isVector : Term → Bool
  | leaf _ => false
  | node op _ dims => op == "vec" && dims.isEmpty

/-- How the arguments of a node are laid out. -/
inductive Layout
  | between (op : Token)
  | chain (op : Token)
  | behind (symbol : Token)
  | index (count : Nat)
  | bars
  | vector
  | matrix
  | set
  deriving DecidableEq

namespace Layout

/-- The names of nodes with a layout. -/
def table : List (String × Layout) :=
  [("||", between "||"), ("&&", between "&&"), ("==", between "=="), ("!=", between "!="),
    ("<", between "<"), ("<=", between "<="), (">", between ">"), (">=", between ">="),
    ("-", between "-"), ("/", between "/"), ("^", between "^"), ("+", chain "+"),
    ("*", chain "*"), (".-", behind "-"), ("!", behind "!"), ("index1", index 1),
    ("index2", index 2), ("abs", bars), ("vec", vector), ("matrix", matrix), ("set", set)]

/-- The layout of the nodes of a name. -/
def ofName? (op : String) : Option Layout := (table.find? (·.1 == op)).map (·.2)

/-- Which arguments fit a layout. -/
def admits : Layout → List Term → Bool
  | between _, args => args.length == 2
  | chain _, args => 2 ≤ args.length
  | behind _, args => args.length == 1
  | index count, args => args.length == count + 1
  | bars, args => args.length == 1
  | vector, _ => true
  | matrix, rows => !rows.isEmpty && rows.all Term.isVector
  | set, args => !args.isEmpty

theorem mem_table_of_name {op : String} {l : Layout} (h : ofName? op = some l) :
    (op, l) ∈ table := by
  obtain ⟨⟨name, l'⟩, hfind, rfl⟩ := Option.map_eq_some_iff.1 h
  have hname := List.find?_some hfind
  simp only [beq_iff_eq] at hname
  rw [← hname]
  exact List.mem_of_find?_eq_some hfind

/-- The layouts with brackets around all arguments belong to one name each. -/
theorem eq_of_mem_table : ∀ e ∈ table,
    (e.2 = bars → e.1 = "abs") ∧ (e.2 = vector ↔ e.1 = "vec") ∧
      (e.2 = matrix → e.1 = "matrix") ∧ (e.2 = set → e.1 = "set") := by
  decide

/-- The operators of the tiers stand between two operands. -/
theorem ofName?_of_mem {t : Tier} {op : Token} (hop : op ∈ t.operators) :
    ofName? op = some (between op) := by
  revert op
  cases t <;> decide

end Layout

end TermReader
