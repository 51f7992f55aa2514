import TermReader.Term.Basic

/-!
A builder makes values out of leaves and operator applications. Reading an
expression goes through a builder and never looks into the values it makes, so
any target can be built: terms, or a record of the calls in their order.
-/

namespace TermReader

/-- The two ways to make a value, each of which may change a state. -/
structure Builder (σ τ : Type) where
  leaf : Leaf → σ → τ × σ
  node : (op : String) → (args dims : List τ) → σ → τ × σ

namespace Builder

/-- A builder without a state of its own. -/
def ofPure {τ : Type} (leaf : Leaf → τ) (node : String → List τ → List τ → τ) : Builder Unit τ where
  leaf l := fun s => (leaf l, s)
  node op args dims := fun s => (node op args dims, s)

/-- Builds terms. -/
def terms : Builder Unit Term := ofPure Term.leaf Term.node

end Builder

/-- One construction; values are the positions of earlier constructions. -/
inductive Call
  | leaf (leaf : Leaf)
  | node (op : String) (args dims : List Nat)
  deriving DecidableEq

namespace Builder

/-- Records every construction, latest first, and yields its position. -/
def calls : Builder (List Call) Nat where
  leaf l := fun made => (made.length, .leaf l :: made)
  node op args dims := fun made => (made.length, .node op args dims :: made)

end Builder

end TermReader
