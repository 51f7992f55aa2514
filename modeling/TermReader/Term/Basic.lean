import TermReader.Number.Literal

/-!
Terms are what reading an expression yields: leaves for numbers, constants and
variables, and operators applied to arguments. An operator may carry dimensions
beside its arguments.
-/

namespace TermReader

/-- The parts of a term that have no parts themselves. -/
inductive Leaf
  | truth (value : Bool)
  | int (value : Nat)
  | real (value : Binary64)
  | complex (re im : Number)
  | infinity
  | irrational (name : String)
  | var (name : String)
  deriving DecidableEq

namespace Leaf

/-- Equality up to the kinds of the numbers in a complex constant. -/
def same : Leaf → Leaf → Bool
  | complex a b, complex c d => a.same c && b.same d
  | a, b => a == b

end Leaf

inductive Term
  | leaf (leaf : Leaf)
  | node (op : String) (args dims : List Term)

namespace Term

mutual

/-- Structural equality, with leaves compared by value. -/
def same : Term → Term → Bool
  | leaf a, leaf b => a.same b
  | node op args dims, node op' args' dims' =>
    op == op' && sameList args args' && sameList dims dims'
  | _, _ => false

def sameList : List Term → List Term → Bool
  | [], [] => true
  | a :: as, b :: bs => same a b && sameList as bs
  | _, _ => false

end

end Term

end TermReader
