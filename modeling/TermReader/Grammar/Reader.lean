import TermReader.Term.Builder
import TermReader.Grammar.Phrase
import TermReader.Grammar.Cursor

/-!
Reading a term by recursive descent with one token of lookahead. Every phrase
that is read leaves fewer tokens than it found, so reading ends; nothing is
read twice. Values are made by a builder as soon as their parts have been read,
and what the builder has done stays done when reading fails.
-/

namespace TermReader

/-- Reading with a builder whose state survives failure. -/
abbrev Reading (σ : Type) := EStateM Failure σ

namespace Builder

variable {σ τ : Type} (b : Builder σ τ)

def makeLeaf (l : Leaf) : Reading σ τ := fun s =>
  let (x, s) := b.leaf l s
  .ok x s

def makeNode (op : String) (args dims : List τ) : Reading σ τ := fun s =>
  let (x, s) := b.node op args dims s
  .ok x s

/-- A single subtraction stays a subtraction. In any other sum the subtracted
summands are negated, and all are added at once. -/
def makeSum (first : τ) : List (Token × τ) → Reading σ τ
  | [] => pure first
  | [("-", x)] => b.makeNode "-" [first, x] []
  | later => do
    let summands ← later.mapM fun (op, x) =>
      if op = "-" then b.makeNode ".-" [x] [] else pure x
    b.makeNode "+" (first :: summands) []

/-- Which node a sum becomes depends on its operators alone. -/
theorem makeSum_eq (first : τ) (later : List (Token × τ)) :
    b.makeSum first later =
      if later.map (·.1) = [] then pure first
      else if later.map (·.1) = ["-"] then b.makeNode "-" (first :: later.map (·.2)) []
      else (later.mapM fun y => if y.1 = "-" then b.makeNode ".-" [y.2] [] else pure y.2) >>=
        fun summands => b.makeNode "+" (first :: summands) [] := by
  rcases later with _ | ⟨⟨op, x⟩, _ | ⟨y, rest⟩⟩
  · rfl
  · by_cases hop : op = "-"
    · subst op
      rfl
    · have hsingle : ∀ z, [(op, x)] = [("-", z)] → False := by simp [hop]
      rw [makeSum.eq_3 _ _ _ (by simp) hsingle]
      simp [hop]
  · rw [makeSum.eq_3 _ _ _ (by simp) (by simp)]
    simp

/-- A product with a division in it is applied step by step from the left; any
other product is formed at once. -/
def makeProduct (first : τ) (later : List (Token × τ)) : Reading σ τ :=
  if later.isEmpty then pure first
  else if later.any (·.1 == "/") then
    later.foldlM (fun x (op, y) => b.makeNode op [x, y] []) first
  else b.makeNode "*" (first :: later.map (·.2)) []

end Builder

/-- Fails with the given reason unless the symbol is at the cursor. -/
def Cursor.expect {σ : Type} (c : Cursor) (symbol : Token) (reason : Reason) : Reading σ Unit :=
  if c.lookahead = symbol then pure () else throw (c.reject reason none)

/-- The cursor at the operand that follows a joint. -/
def Cursor.past (c : Cursor) : Joint → Cursor
  | .written _ => c.next
  | .implied => c

theorem Cursor.size_past_le (c : Cursor) (j : Joint) : (c.past j).size ≤ c.size := by
  cases j
  · exact c.size_next_le
  · exact Nat.le_refl _

/-- The description of a call with a wrong number of arguments. -/
def callDetail (name : Token) (count : Nat) : String :=
  "function " ++ name ++ " got " ++ toString count ++ " argument(s)"

namespace Grammar

variable {σ τ : Type} (ctx : Context) (b : Builder σ τ)

mutual

/-- Reads a phrase at the cursor. -/
def phrase (p : Phrase) (c : Cursor) : Reading σ (Read c.size τ) :=
  match p with
  | .tier t => do
    have hrank := t.rank_operand_lt
    let ⟨left, c₁, h₁⟩ ← phrase t.operand c
    if c₁.lookahead ∈ t.operators then
      have hnext := c₁.size_next_le
      let ⟨right, c₂, h₂⟩ ← phrase t.operand c₁.next
      let value ← b.makeNode c₁.lookahead [left, right] []
      return ⟨value, c₂, by omega⟩
    else return ⟨left, c₁, h₁⟩
  | .sum => do
    let ⟨(first, later), c₁, h₁⟩ ← series .summands c
    let value ← b.makeSum first later
    return ⟨value, c₁, h₁⟩
  | .product => do
    let ⟨(first, later), c₁, h₁⟩ ← series .factors c
    let value ← b.makeProduct first later
    return ⟨value, c₁, h₁⟩
  | .power => do
    let ⟨base, c₁, h₁⟩ ← phrase .unary c
    if c₁.lookahead = "^" then
      have hnext := c₁.size_next_le
      let ⟨exponent, c₂, h₂⟩ ← phrase .unary c₁.next
      let value ← b.makeNode "^" [base, exponent] []
      return ⟨value, c₂, by omega⟩
    else return ⟨base, c₁, h₁⟩
  | .unary =>
    if hminus : c.lookahead = "-" then do
      have hnext := c.size_next_lt_of_eq "-" hminus (by decide)
      let ⟨x, c₁, h₁⟩ ← phrase .product c.next
      let value ← b.makeNode ".-" [x] []
      return ⟨value, c₁, by omega⟩
    else if hnot : c.lookahead = "!" then do
      have hnext := c.size_next_lt_of_eq "!" hnot (by decide)
      let ⟨x, c₁, h₁⟩ ← phrase .primary c.next
      let value ← b.makeNode "!" [x] []
      return ⟨value, c₁, by omega⟩
    else do
      let ⟨x, c₁, h₁⟩ ← phrase .primary c
      if c₁.lookahead = "[" then
        have hnext := c₁.size_next_le
        let ⟨i, c₂, h₂⟩ ← phrase .term c₁.next
        if c₂.lookahead = "," then
          have hnext' := c₂.size_next_le
          let ⟨j, c₃, h₃⟩ ← phrase .term c₂.next
          let value ← b.makeNode "index2" [x, i, j] []
          c₃.expect "]" .expectedBracket
          return ⟨value, c₃.next, by have := c₃.size_next_le; omega⟩
        else
          let value ← b.makeNode "index1" [x, i] []
          c₂.expect "]" .expectedBracket
          return ⟨value, c₂.next, by have := c₂.size_next_le; omega⟩
      else return ⟨x, c₁, h₁⟩
  | .primary =>
    -- a stream ends with its end mark, so this is for cursors that have no stream
    if hend : c.rest = [] then throw (c.reject .unexpectedEnd none)
    else
      have hnext := c.size_next_lt hend
      match ctx.opening c.lookahead with
      | .leaf l => do
        let value ← b.makeLeaf l
        return ⟨value, c.next, hnext⟩
      | .excess digits => throw (.excessDigits digits)
      | .call => call c hend
      | .paren => do
        let ⟨x, c₁, h₁⟩ ← phrase .term c.next
        c₁.expect ")" .expectedParen
        return ⟨x, c₁.next, by have := c₁.size_next_le; omega⟩
      | .bar => do
        let ⟨x, c₁, h₁⟩ ← phrase .term c.next
        c₁.expect "|" .expectedBar
        let value ← b.makeNode "abs" [x] []
        return ⟨value, c₁.next, by have := c₁.size_next_le; omega⟩
      | .bracket =>
        if c.next.lookahead = "[" then do
          let ⟨(first, later), c₁, h₁⟩ ← series .rows c.next
          c₁.expect "]" .expectedBracket
          let value ← b.makeNode "matrix" (first :: later.map (·.2)) []
          return ⟨value, c₁.next, by have := c₁.size_next_le; omega⟩
        else do
          let ⟨x, c₁, h₁⟩ ← phrase .elements c.next
          return ⟨x, c₁, by omega⟩
      | .brace => do
        let ⟨(first, later), c₁, h₁⟩ ← series .terms c.next
        c₁.expect "\x7d" .expectedBrace
        let value ← b.makeNode "set" (first :: later.map (·.2)) []
        return ⟨value, c₁.next, by have := c₁.size_next_le; omega⟩
      | .none =>
        throw (c.reject
          (if c.lookahead = Token.endMark then .unexpectedEnd else .unexpectedToken) none)
  | .row =>
    if hopen : c.lookahead = "[" then do
      have hnext := c.size_next_lt_of_eq "[" hopen (by decide)
      let ⟨x, c₁, h₁⟩ ← phrase .elements c.next
      return ⟨x, c₁, by omega⟩
    else throw (c.reject .expectedOpenBracket none)
  | .elements =>
    if hclose : c.lookahead = "]" then do
      let value ← b.makeNode "vec" [] []
      return ⟨value, c.next, c.size_next_lt_of_eq "]" hclose (by decide)⟩
    else do
      let ⟨(first, later), c₁, h₁⟩ ← series .terms c
      c₁.expect "]" .expectedBracket
      let value ← b.makeNode "vec" (first :: later.map (·.2)) []
      return ⟨value, c₁.next, by have := c₁.size_next_le; omega⟩
termination_by 16 * c.size + p.rank
decreasing_by all_goals simp only [Phrase.rank, Phrase.term, Series.rank] at *; omega

/-- Reads a first operand and all that follow it in the series, each with the
operator before it. -/
def series (k : Series) (c : Cursor) : Reading σ (Read c.size (τ × List (Token × τ))) := do
  have hrank := k.rank_operand_lt
  let ⟨first, c₁, h₁⟩ ← phrase k.operand c
  let ⟨later, c₂, h₂⟩ ← more k c₁
  return ⟨(first, later), c₂, by omega⟩
termination_by 16 * c.size + k.rank

/-- Reads further operands of a series as long as it goes on. -/
def more (k : Series) (c : Cursor) : Reading σ (Read (c.size + 1) (List (Token × τ))) :=
  match k.joint? c.lookahead with
  | none => pure ⟨[], c, Nat.lt_succ_self _⟩
  | some j => do
    have hnext := c.size_past_le j
    have hrank := k.rank_operand_lt
    have hle := k.rank_le
    let ⟨x, c₁, h₁⟩ ← phrase k.operand (c.past j)
    let ⟨later, c₂, h₂⟩ ← more k c₁
    return ⟨(j.operator, x) :: later, c₂, by omega⟩
termination_by 16 * c.size + 15

/-- Reads a call; its name is at the cursor. A function of no arguments takes
an empty list. A name without a list takes one operand, if it may. -/
def call (c : Cursor) (hend : c.rest ≠ []) : Reading σ (Read c.size τ) := do
  have hnext := c.size_next_lt hend
  let name := c.lookahead
  let ⟨dims, c₁, h₁⟩ ← dimensions c.next
  if c₁.lookahead = "(" then
    have hnext' := c₁.size_next_le
    let ⟨args, c₂, h₂⟩ ←
      if 0 ∈ ctx.arities name then pure ⟨[], c₁.next, Nat.lt_succ_self _⟩
      else arguments c₁.next
    c₂.expect ")" .expectedParen
    if args.length ∈ ctx.arities name then
      let value ← b.makeNode name args dims
      return ⟨value, c₂.next, by have := c₂.size_next_le; omega⟩
    else
      throw (c₂.next.reject .wrongArgumentCount (some (callDetail name args.length)))
  else if 1 ∈ ctx.arities name ∧ dims.isEmpty then
    let ⟨x, c₂, h₂⟩ ← phrase .unary c₁
    let value ← b.makeNode name [x] []
    return ⟨value, c₂, by omega⟩
  else throw (c₁.reject .expectedCall (some ("function " ++ name)))
termination_by 16 * c.size + 1
decreasing_by
  · omega
  · omega
  · simp only [Phrase.rank]
    omega

/-- Reads the dimensions of a call, if there are any. -/
def dimensions (c : Cursor) : Reading σ (Read (c.size + 1) (List τ)) :=
  if c.lookahead = "<" then do
    have hnext := c.size_next_le
    let ⟨(first, later), c₁, h₁⟩ ← series .dimensions c.next
    c₁.expect ">" .expectedAngle
    return ⟨first :: later.map (·.2), c₁.next, by have := c₁.size_next_le; omega⟩
  else pure ⟨[], c, Nat.lt_succ_self _⟩
termination_by 16 * c.size + 15
decreasing_by
  simp only [Series.rank]
  omega

/-- Reads the arguments of a call. -/
def arguments (c : Cursor) : Reading σ (Read (c.size + 1) (List τ)) := do
  let ⟨(first, later), c₁, h₁⟩ ← series .terms c
  return ⟨first :: later.map (·.2), c₁, by omega⟩
termination_by 16 * c.size + 15
decreasing_by
  simp only [Series.rank]
  omega

end

/-- Reads a whole token stream: one term, and then the end mark alone. A stream
with an end mark is read up to it at most, unless the context has it for a name. -/
def read (tokens : List Token) : Reading σ τ := do
  let ⟨x, c, _⟩ ← phrase ctx b .term (Cursor.start tokens)
  if c.rest = [Token.endMark] then return x else throw (c.reject .trailingTokens none)

end Grammar

end TermReader
