import TermReader.Token.Basic

/-!
A context lists the known names: functions by the number of arguments they
take, and irrational constants. A name may stand in several tables. A context
is well named when every name in it is an identifier.
-/

namespace TermReader

/-- The tables of a context: functions by argument count, and constants. -/
inductive NameTable
  | nullary
  | unary
  | binary
  | ternary
  | quaternary
  | irrationals
  deriving DecidableEq

namespace NameTable

def all : List NameTable := [nullary, unary, binary, ternary, quaternary, irrationals]

def label : NameTable → String
  | nullary => "nullary"
  | unary => "unary"
  | binary => "binary"
  | ternary => "ternary"
  | quaternary => "quaternary"
  | irrationals => "irrationals"

def ofLabel? (label : String) : Option NameTable := all.find? (·.label == label)

/-- The number of arguments that the functions of a table take. -/
def arity? : NameTable → Option Nat
  | nullary => some 0
  | unary => some 1
  | binary => some 2
  | ternary => some 3
  | quaternary => some 4
  | irrationals => none

end NameTable

structure Context where
  name : String
  names : NameTable → List String

namespace Context

/-- The argument counts that a function accepts, in ascending order; none for a
name that is no function. -/
def arities (ctx : Context) (name : String) : List Nat :=
  NameTable.all.filterMap fun table => if name ∈ ctx.names table then table.arity? else none

def isFunction (ctx : Context) (name : String) : Bool := !(ctx.arities name).isEmpty

def isIrrational (ctx : Context) (name : String) : Bool := (ctx.names .irrationals).contains name

/-- The spelling of the constant infinity. -/
def infinityName : Token := "inf"

/-- Names of constants. -/
def isConstant (ctx : Context) (name : String) : Bool :=
  name == infinityName || ctx.isIrrational name

/-- Every name of every table is an identifier. -/
def WellNamed (ctx : Context) : Prop :=
  ∀ table, ∀ name ∈ ctx.names table, Token.isIdentifier name = true

def empty (name : String) : Context := ⟨name, fun _ => []⟩

/-- The functions and constants known unless another context is given. -/
def standard : Context where
  name := "Default"
  names
    | .nullary => ["eye", "ones", "zeros"]
    | .unary =>
      ["abs", "arg", "ceil", "cols", "conj", "cos", "det", "exp", "fac", "floor", "imag", "len",
        "ln", "max", "min", "norm", "opt", "rand", "real", "round", "rows", "shuffle", "sin",
        "sqrt", "tan", "term", "transpose", "triu", "is_invertible", "is_symmetric", "is_zero"]
    | .binary =>
      ["binomial", "col", "complex", "cross", "diff", "dot", "rand", "randZ", "row"]
    | .ternary => []
    | .quaternary => ["int"]
    | .irrationals => ["pi", "e"]

end Context

end TermReader
