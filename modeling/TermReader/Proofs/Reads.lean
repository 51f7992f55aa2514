import TermReader.Grammar.Reader
import Mathlib

/-!
What reading into terms yields, as rules over token lists. Each rule says what
an item takes from the front of a list, which value this has and what is left.
A rule looks at most at the first token that is left, so the rules determine how
far an item goes: an operand is followed by as much as the next token allows.
-/

namespace TermReader

namespace Term

/-- A summand behind its operator. -/
def summand (y : Token × Term) : Term := if y.1 = "-" then node ".-" [y.2] [] else y.2

/-- The term of a sum. -/
def ofSum (first : Term) (later : List (Token × Term)) : Term :=
  if later.map (·.1) = [] then first
  else if later.map (·.1) = ["-"] then node "-" (first :: later.map (·.2)) []
  else node "+" (first :: later.map summand) []

/-- The term of a product. -/
def ofProduct (first : Term) (later : List (Token × Term)) : Term :=
  if later.isEmpty then first
  else if later.any (·.1 == "/") then later.foldl (fun x y => node y.1 [x, y.2] []) first
  else node "*" (first :: later.map (·.2)) []

/-- The operands of a series without their operators. -/
def operands (first : Term) (later : List (Token × Term)) : List Term := first :: later.map (·.2)

end Term

/-- What is read in one go: a phrase, the operands of a series after the first,
or the dimensions of a call. -/
inductive Item
  | one (p : Phrase)
  | more (k : Series)
  | dimensions

/-- The values of an item. -/
abbrev Item.Value : Item → Type
  | one _ => Term
  | more _ => List (Token × Term)
  | dimensions => List Term

/-- Items of lower rank may be read at the same place. -/
def Item.rank : Item → Nat
  | one p => p.rank
  | more _ | dimensions => 15

/-- The first token of a list, or the end mark. -/
def lead (ts : List Token) : Token := ts.headD Token.endMark

@[simp] theorem lead_cons (t : Token) (ts : List Token) : lead (t :: ts) = t := rfl

/-- A list that starts with a token other than the end mark has it in front. -/
theorem eq_cons_of_lead {ts : List Token} {t : Token} (h : lead ts = t)
    (ht : t ≠ Token.endMark) : ts = t :: ts.tail := by
  cases ts with
  | nil => exact absurd h.symm ht
  | cons s ts =>
    simp only [lead_cons] at h
    rw [h, List.tail_cons]

/-- The tokens after the joint of a series. -/
def Joint.past : Joint → List Token → List Token
  | written _, ts => ts.tail
  | implied, ts => ts

/-- `Reads ctx i ts x rest`: in the tokens `ts` the item `i` has the value `x`, and
`rest` is left. -/
inductive Reads (ctx : Context) : (i : Item) → List Token → i.Value → List Token → Prop
  | single {t ts x rest} (hx : Reads ctx (.one t.operand) ts x rest)
      (hstop : lead rest ∉ t.operators) : Reads ctx (.one (.tier t)) ts x rest
  | joined {t op ts x ts₁ y rest} (hx : Reads ctx (.one t.operand) ts x (op :: ts₁))
      (hop : op ∈ t.operators) (hy : Reads ctx (.one t.operand) ts₁ y rest) :
      Reads ctx (.one (.tier t)) ts (.node op [x, y] []) rest
  | sum {ts x ts₁ later rest} (hx : Reads ctx (.one .product) ts x ts₁)
      (hlater : Reads ctx (.more .summands) ts₁ later rest) :
      Reads ctx (.one .sum) ts (.ofSum x later) rest
  | product {ts x ts₁ later rest} (hx : Reads ctx (.one .power) ts x ts₁)
      (hlater : Reads ctx (.more .factors) ts₁ later rest) :
      Reads ctx (.one .product) ts (.ofProduct x later) rest
  | base {ts x rest} (hx : Reads ctx (.one .unary) ts x rest) (hstop : lead rest ≠ "^") :
      Reads ctx (.one .power) ts x rest
  | power {ts x ts₁ y rest} (hx : Reads ctx (.one .unary) ts x ("^" :: ts₁))
      (hy : Reads ctx (.one .unary) ts₁ y rest) :
      Reads ctx (.one .power) ts (.node "^" [x, y] []) rest
  | minus {ts x rest} (hx : Reads ctx (.one .product) ts x rest) :
      Reads ctx (.one .unary) ("-" :: ts) (.node ".-" [x] []) rest
  | not {ts x rest} (hx : Reads ctx (.one .primary) ts x rest) :
      Reads ctx (.one .unary) ("!" :: ts) (.node "!" [x] []) rest
  | plain {ts x rest} (hminus : lead ts ≠ "-") (hnot : lead ts ≠ "!")
      (hx : Reads ctx (.one .primary) ts x rest) (hstop : lead rest ≠ "[") :
      Reads ctx (.one .unary) ts x rest
  | index1 {ts x ts₁ i rest} (hminus : lead ts ≠ "-") (hnot : lead ts ≠ "!")
      (hx : Reads ctx (.one .primary) ts x ("[" :: ts₁))
      (hi : Reads ctx (.one .term) ts₁ i ("]" :: rest)) :
      Reads ctx (.one .unary) ts (.node "index1" [x, i] []) rest
  | index2 {ts x ts₁ i ts₂ j rest} (hminus : lead ts ≠ "-") (hnot : lead ts ≠ "!")
      (hx : Reads ctx (.one .primary) ts x ("[" :: ts₁))
      (hi : Reads ctx (.one .term) ts₁ i ("," :: ts₂))
      (hj : Reads ctx (.one .term) ts₂ j ("]" :: rest)) :
      Reads ctx (.one .unary) ts (.node "index2" [x, i, j] []) rest
  | leaf {t l rest} (ht : ctx.opening t = .leaf l) :
      Reads ctx (.one .primary) (t :: rest) (.leaf l) rest
  | paren {t ts x rest} (ht : ctx.opening t = .paren)
      (hx : Reads ctx (.one .term) ts x (")" :: rest)) :
      Reads ctx (.one .primary) (t :: ts) x rest
  | bar {t ts x rest} (ht : ctx.opening t = .bar)
      (hx : Reads ctx (.one .term) ts x ("|" :: rest)) :
      Reads ctx (.one .primary) (t :: ts) (.node "abs" [x] []) rest
  | vector {t ts x rest} (ht : ctx.opening t = .bracket) (hrow : lead ts ≠ "[")
      (hx : Reads ctx (.one .elements) ts x rest) : Reads ctx (.one .primary) (t :: ts) x rest
  | matrix {t ts x ts₁ later rest} (ht : ctx.opening t = .bracket)
      (hx : Reads ctx (.one .row) ts x ts₁)
      (hlater : Reads ctx (.more .rows) ts₁ later ("]" :: rest)) :
      Reads ctx (.one .primary) (t :: ts) (.node "matrix" (Term.operands x later) []) rest
  | set {t ts x ts₁ later rest} (ht : ctx.opening t = .brace)
      (hx : Reads ctx (.one .term) ts x ts₁)
      (hlater : Reads ctx (.more .terms) ts₁ later ("\x7d" :: rest)) :
      Reads ctx (.one .primary) (t :: ts) (.node "set" (Term.operands x later) []) rest
  | callNone {t ts dims rest} (ht : ctx.opening t = .call)
      (hdims : Reads ctx .dimensions ts dims ("(" :: ")" :: rest)) (hcount : 0 ∈ ctx.arities t) :
      Reads ctx (.one .primary) (t :: ts) (.node t [] dims) rest
  | callSome {t ts dims ts₁ x ts₂ later rest} (ht : ctx.opening t = .call)
      (hdims : Reads ctx .dimensions ts dims ("(" :: ts₁)) (hsome : 0 ∉ ctx.arities t)
      (hx : Reads ctx (.one .term) ts₁ x ts₂)
      (hlater : Reads ctx (.more .terms) ts₂ later (")" :: rest))
      (hcount : (Term.operands x later).length ∈ ctx.arities t) :
      Reads ctx (.one .primary) (t :: ts) (.node t (Term.operands x later) dims) rest
  | apply {t ts x rest} (ht : ctx.opening t = .call) (hangle : lead ts ≠ "<")
      (hparen : lead ts ≠ "(") (hone : 1 ∈ ctx.arities t)
      (hx : Reads ctx (.one .unary) ts x rest) :
      Reads ctx (.one .primary) (t :: ts) (.node t [x] []) rest
  | row {ts x rest} (hx : Reads ctx (.one .elements) ts x rest) :
      Reads ctx (.one .row) ("[" :: ts) x rest
  | empty {rest} : Reads ctx (.one .elements) ("]" :: rest) (.node "vec" [] []) rest
  | elements {ts x ts₁ later rest} (hclose : lead ts ≠ "]") (hx : Reads ctx (.one .term) ts x ts₁)
      (hlater : Reads ctx (.more .terms) ts₁ later ("]" :: rest)) :
      Reads ctx (.one .elements) ts (.node "vec" (Term.operands x later) []) rest
  | stop {k ts} (hjoint : k.joint? (lead ts) = none) : Reads ctx (.more k) ts [] ts
  | step {k j ts x ts₁ later rest} (hjoint : k.joint? (lead ts) = some j)
      (hx : Reads ctx (.one k.operand) (j.past ts) x ts₁)
      (hlater : Reads ctx (.more k) ts₁ later rest) :
      Reads ctx (.more k) ts ((j.operator, x) :: later) rest
  | noDimensions {ts} (hangle : lead ts ≠ "<") : Reads ctx .dimensions ts [] ts
  | dimensions {ts x ts₁ later rest} (hx : Reads ctx (.one .unary) ts x ts₁)
      (hlater : Reads ctx (.more .dimensions) ts₁ later (">" :: rest)) :
      Reads ctx .dimensions ("<" :: ts) (Term.operands x later) rest

theorem Reads.dimensions_nil {ctx : Context} {ts rest : List Token}
    (h : Reads ctx .dimensions ts [] rest) : rest = ts ∧ lead ts ≠ "<" := by
  cases h with
  | noDimensions hangle => exact ⟨rfl, hangle⟩

theorem Reads.lead_row {ctx : Context} {ts rest : List Token} {x : Term}
    (h : Reads ctx (.one .row) ts x rest) : lead ts = "[" := by
  cases h with
  | row => rfl

/-- How much shorter an item leaves the tokens: a phrase takes a token at least. -/
def Item.Shortens : Item → List Token → List Token → Prop
  | one _, ts, rest => rest.length < ts.length
  | more _, ts, rest => rest.length ≤ ts.length
  | dimensions, ts, rest => rest.length ≤ ts.length

theorem Joint.length_past_le (j : Joint) (ts : List Token) : (j.past ts).length ≤ ts.length := by
  cases j <;> simp [Joint.past]

theorem Reads.shortens {ctx : Context} {i : Item} {ts rest : List Token} {x : i.Value}
    (h : Reads ctx i ts x rest) : i.Shortens ts rest := by
  induction h with
  | step hjoint hx hlater ihx ihlater =>
    rename_i k j ts x ts₁ later rest
    have hpast := j.length_past_le ts
    simp only [Item.Shortens] at *
    omega
  | _ =>
    simp only [Item.Shortens, List.length_cons] at *
    omega

end TermReader
