import TermReader.Context.Basic
import TermReader.Number.Literal
import TermReader.Term.Basic

/-!
The phrases of the grammar, from the loosest binding to the tightest:

    term        = conjunctions joined by at most one "||"
    conjunction = equalities joined by at most one "&&"
    equality    = relations joined by at most one "==" or "!="
    relation    = sums joined by at most one "<", "<=", ">" or ">="
    sum         = products joined by any number of "+" and "-"
    product     = powers joined by any number of "*" and "/"; a factor that
                  starts with a name or "(" needs no operator
    power       = unary [ "^" unary ]
    unary       = "-" product | "!" primary | primary [ index ]
    index       = "[" term [ "," term ] "]"
    primary     = leaf | call | "(" term ")" | "|" term "|"
                | "[" elements | "[" row { "," row } "]" | "{" term { "," term } "}"
    row         = "[" elements
    elements    = [ term { "," term } ] "]"
    call        = name [ "<" unary { "," unary } ">" ] "(" [ term { "," term } ] ")"
                | name unary

What a token means where a primary phrase is due depends on the token and the
context alone.
-/

namespace TermReader

/-- The levels whose operators do not chain. -/
inductive Tier
  | disjunction
  | conjunction
  | equality
  | relation
  deriving DecidableEq

inductive Phrase
  | tier (tier : Tier)
  | sum
  | product
  | power
  | unary
  | primary
  | row
  | elements
  deriving DecidableEq

/-- The series of the grammar: phrases of one kind joined by operators, by
nothing, or by commas. -/
inductive Series
  | summands
  | factors
  | terms
  | dimensions
  | rows
  deriving DecidableEq

namespace Tier

def operators : Tier → List Token
  | disjunction => ["||"]
  | conjunction => ["&&"]
  | equality => ["==", "!="]
  | relation => ["<", "<=", ">", ">="]

/-- The phrases on either side of the operator. -/
def operand : Tier → Phrase
  | disjunction => .tier .conjunction
  | conjunction => .tier .equality
  | equality => .tier .relation
  | relation => .sum

end Tier

namespace Phrase

/-- A whole term. -/
def term : Phrase := .tier .disjunction

/-- Phrases of lower rank may be read at the same place. -/
def rank : Phrase → Nat
  | row => 0
  | primary => 2
  | unary => 3
  | power => 4
  | product => 6
  | sum => 8
  | tier .relation => 9
  | tier .equality => 10
  | tier .conjunction => 11
  | tier .disjunction => 12
  | elements => 14

end Phrase

theorem Tier.rank_operand_lt (t : Tier) : t.operand.rank < (Phrase.tier t).rank := by
  cases t <;> decide

theorem Tier.ne_endMark {t : Tier} {op : Token} (h : op ∈ t.operators) : op ≠ Token.endMark := by
  rintro rfl
  cases t <;> exact absurd h (by decide)

/-- How a series goes on: by an operator in the input, or by a product that is
written without one. -/
inductive Joint
  | written (op : Token)
  | implied
  deriving DecidableEq

namespace Joint

def operator : Joint → Token
  | written op => op
  | implied => "*"

end Joint

namespace Series

def operand : Series → Phrase
  | summands => .product
  | factors => .power
  | terms => .term
  | dimensions => .unary
  | rows => .row

def rank : Series → Nat
  | factors => 5
  | summands => 7
  | terms => 13
  | dimensions => 5
  | rows => 5

theorem rank_operand_lt (k : Series) : k.operand.rank < k.rank := by
  cases k <;> decide

theorem rank_le (k : Series) : k.rank ≤ 13 := by
  cases k <;> decide

/-- Whether and how the series goes on at a token. -/
def joint? : Series → Token → Option Joint
  | summands, t => if t = "+" ∨ t = "-" then some (.written t) else none
  | factors, t =>
    if t = "*" ∨ t = "/" then some (.written t)
    else if t.isIdentifier ∨ t = "(" then some .implied
    else none
  | _, t => if t = "," then some (.written t) else none

/-- No series goes on at the end mark. -/
theorem joint?_endMark (k : Series) : k.joint? Token.endMark = none := by
  cases k <;> decide

end Series

namespace Context

/-- What a token is where a primary phrase is due. -/
inductive Opening
  | leaf (leaf : Leaf)
  | excess (digits : Nat)
  | call
  | paren
  | bar
  | bracket
  | brace
  | none
  deriving DecidableEq

/-- Truth values and infinity come first, then numerals, known names and
variables, and last the opening symbols. -/
def opening (ctx : Context) (t : Token) : Opening :=
  if t = "true" then .leaf (.truth true)
  else if t = "false" then .leaf (.truth false)
  else if t = infinityName then .leaf .infinity
  else if t.isImaginary then
    match t.excessDigits? with
    | some digits => .excess digits
    | Option.none => .leaf (.complex (.int 0) (Token.imaginaryValue t.toList.dropLast))
  else if t.isInteger then
    match t.excessDigits? with
    | some digits => .excess digits
    | Option.none => .leaf (.int (Token.natValue t.toList))
  else if t.isReal then .leaf (.real (Token.realValue t.toList))
  else if ctx.isIrrational t then .leaf (.irrational t)
  else if ctx.isFunction t then .call
  else if t.isIdentifier then .leaf (.var t)
  else if t = "(" then .paren
  else if t = "|" then .bar
  else if t = "[" then .bracket
  else if t = "\x7b" then .brace
  else .none

end Context

end TermReader
