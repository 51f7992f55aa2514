import TermReader.Term.Basic
import TermReader.Number.Shortest
import TermReader.Text.Quoted

/-!
The listing of a term names every node and its fields in full, on one line. It
is made level by level, and the height of a term is the number of its levels.
-/

namespace TermReader

def Number.listing : Number → String
  | int n => toString n
  | real x => x.render

def Leaf.listing : Leaf → String
  | truth value => "ConstBoolean(value=" ++ (if value then "True" else "False") ++ ")"
  | int value => "ConstInt(value=" ++ toString value ++ ")"
  | real value => "ConstReal(value=" ++ value.render ++ ")"
  | complex re im => "ConstComplex(real=" ++ re.listing ++ ", imag=" ++ im.listing ++ ")"
  | infinity => "ConstInfinity()"
  | irrational name => "ConstIrrational(name=" ++ Text.quoted name ++ ")"
  | var name => "Variable(name=" ++ Text.quoted name ++ ")"

/-- Items in parentheses; a single item is followed by a comma. -/
def Text.tuple : List String → String
  | [item] => "(" ++ item ++ ",)"
  | items => "(" ++ ", ".intercalate items ++ ")"

namespace Term

mutual

def listing : Term → String
  | leaf l => l.listing
  | node op args dims =>
    "Operator(op=" ++ Text.quoted op ++ ", args=" ++ Text.tuple (listings args)
      ++ ", dims=" ++ Text.tuple (listings dims) ++ ")"

def listings : List Term → List String
  | [] => []
  | t :: ts => listing t :: listings ts

end

mutual

/-- The number of nodes on the longest way down a term. -/
def height : Term → Nat
  | leaf _ => 1
  | node _ args dims => max (heights args) (heights dims) + 1

def heights : List Term → Nat
  | [] => 0
  | t :: ts => max (height t) (heights ts)

end

end Term

end TermReader
