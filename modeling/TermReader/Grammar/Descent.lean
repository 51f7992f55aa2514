import TermReader.Grammar.Reader
import TermReader.Number.Conversion

/-!
The reader as routines that call one another. Every rule of the grammar is a
routine. The routines share a stream of tokens that moves on under them, and a
call that is nested more deeply than there is room for ends the run, as does a
text that cannot be converted to a number.
-/

namespace TermReader

/-- A stream of tokens, the token in sight, and the position behind it. -/
structure TokenStream where
  tokens : List Token
  position : Nat
  lookahead : Token
  deriving DecidableEq

namespace TokenStream

/-- The stream moved on by a token. At its end the position stays, and the end
mark is in sight. -/
def next (t : TokenStream) : TokenStream :=
  match t.tokens[t.position]? with
  | some token => { t with position := t.position + 1, lookahead := token }
  | none => { t with lookahead := Token.endMark }

/-- The rejection of the token in sight. -/
def reject (t : TokenStream) (reason : Reason) (detail : Option String) : Failure :=
  .rejected ⟨reason, t.lookahead, t.position - 1, detail⟩

/-- Whether the last token is in sight, and is the end mark. -/
def AtEnd (t : TokenStream) : Prop :=
  t.lookahead = Token.endMark ∧ t.position = t.tokens.length

instance (t : TokenStream) : Decidable t.AtEnd := inferInstanceAs (Decidable (_ ∧ _))

end TokenStream

/-- Why a run of routines stops early: the input is at fault, a text is no
numeral, or calls are nested too deeply. -/
inductive Stop
  | failed (failure : Failure)
  | malformed (numeral : Token)
  | exhausted
  deriving DecidableEq

namespace Stop

/-- The outcome of reading, as that of a run. -/
def ofResult {σ α : Type} : EStateM.Result Failure σ α → EStateM.Result Stop σ α
  | .ok x s => .ok x s
  | .error e s => .error (.failed e) s

def message : Stop → String
  | failed failure => failure.message
  | malformed numeral => "could not convert string to a number: '" ++ numeral ++ "'"
  | exhausted => "maximum recursion depth exceeded"

end Stop

/-- A run of routines over a stream and the state of a builder. -/
abbrev Descent (σ : Type) := EStateM Stop (TokenStream × σ)

/-- The routines, by what they read. An index is read for what stands in front
of it. -/
inductive Routine (τ : Type)
  | term
  | tier (tier : Tier)
  | pair (tier : Tier)
  | sum
  | product
  | power
  | unary
  | primary
  | call
  | index (x : τ)
  | vector
  | elements
  | brackets
  | braces

namespace Descent

variable {σ τ α : Type}

/-- The token in sight. -/
def seen : Descent σ Token := fun s => .ok s.1.lookahead s

/-- Moves on by a token. -/
def step : Descent σ Unit := fun s => .ok () (s.1.next, s.2)

def reject (reason : Reason) (detail : Option String) : Descent σ α :=
  fun s => .error (.failed (s.1.reject reason detail)) s

def exhaust : Descent σ α := throw .exhausted

/-- Steps over a symbol that must be in sight. -/
def expect (symbol : Token) (reason : Reason) : Descent σ Unit := do
  if (← seen) = symbol then step else reject reason none

/-- What a builder makes does not move the stream. -/
def build (m : Reading σ α) : Descent σ α := fun s =>
  match m s.2 with
  | .ok x made => .ok x (s.1, made)
  | .error e made => .error (.failed e) (s.1, made)

/-- Converts a text to an integer. -/
def integer (t : Token) : Descent σ Nat :=
  match Text.int? Token.digitLimit t with
  | some n => pure n.toNat
  | none =>
    let digits := (t.toList.filter Text.isDigit).length
    throw (if Token.digitLimit < digits then .failed (.excessDigits digits) else .malformed t)

/-- Converts a text to a binary number. -/
def decimal (t : Token) : Descent σ Binary64 :=
  match Text.decimal? t with
  | some x => pure x
  | none => throw (.malformed t)

/-- Converts a text to a number of the kind that its spelling tells. -/
def number (t : Token) : Descent σ Number := do
  if t.isInteger then return .int (← integer t) else return .real (← decimal t)

/-- Steps over the operator of a joint, if there is one. -/
def past : Joint → Descent σ Unit
  | .written _ => step
  | .implied => pure ()

/-- Reads further operands as long as the series goes on, and at most so many. -/
def further (k : Series) (operand : Descent σ τ) : Nat → Descent σ (List (Token × τ))
  | 0 => pure []
  | bound + 1 => do
    match k.joint? (← seen) with
    | none => return []
    | some j =>
      past j
      let x ← operand
      let later ← further k operand bound
      return (j.operator, x) :: later

/-- Reads a first operand and all that follow it. There are no more operands
than tokens. -/
def series (k : Series) (first operand : Descent σ τ) : Descent σ (τ × List (Token × τ)) := do
  let x ← first
  let later ← fun s => further k operand s.1.tokens.length s
  return (x, later)

/-- Reads operands between commas. -/
def listed (first operand : Descent σ τ) : Descent σ (List τ) := do
  let (x, later) ← series .terms first operand
  return x :: later.map (·.2)

/-- Reads the dimensions of a call, if there are any. -/
def dimensions (operand : Descent σ τ) : Descent σ (List τ) := do
  if (← seen) = "<" then
    step
    let (x, later) ← series .dimensions operand operand
    expect ">" .expectedAngle
    return x :: later.map (·.2)
  else return []

/-- Makes a value behind a closing symbol. -/
def closed (symbol : Token) (reason : Reason) (m : Reading σ α) : Descent σ α := do
  expect symbol reason
  build m

/-- Makes an index, and then looks for the closing symbol. -/
def closedIndex (b : Builder σ τ) (op : String) (args : List τ) : Descent σ τ := do
  let value ← build (b.makeNode op args [])
  expect "]" .expectedBracket
  return value

/-- Makes a call of arguments that are closed and counted. -/
def counted (ctx : Context) (b : Builder σ τ) (name : Token) (dims args : List τ) :
    Descent σ τ := do
  expect ")" .expectedParen
  if args.length ∈ ctx.arities name then build (b.makeNode name args dims)
  else reject .wrongArgumentCount (some (callDetail name args.length))

end Descent

namespace Tier

/-- The routine for the phrases on either side of the operator. -/
def routine {τ : Type} : Tier → Routine τ
  | disjunction => .tier .conjunction
  | conjunction => .tier .equality
  | equality => .tier .relation
  | relation => .sum

end Tier

namespace Routine

open Descent

variable {σ τ : Type} (ctx : Context) (b : Builder σ τ)

/-- What a routine does, with calls carried out in the given way. -/
def body (go : Routine τ → Descent σ τ) : Routine τ → Descent σ τ
  | term => go (tier .disjunction)
  | tier t => go (pair t)
  | pair t => do
    let left ← go t.routine
    let op ← seen
    if op ∈ t.operators then
      step
      let right ← go t.routine
      build (b.makeNode op [left, right] [])
    else return left
  | sum => do
    let (first, later) ← series .summands (go product) (go product)
    build (b.makeSum first later)
  | product => do
    let (first, later) ← series .factors (go power) (go power)
    build (b.makeProduct first later)
  | power => do
    let base ← go unary
    if (← seen) = "^" then
      step
      let exponent ← go unary
      build (b.makeNode "^" [base, exponent] [])
    else return base
  | unary => do
    let t ← seen
    if t = "-" then
      step
      let x ← go product
      build (b.makeNode ".-" [x] [])
    else if t = "!" then
      step
      let x ← go primary
      build (b.makeNode "!" [x] [])
    else
      let x ← go primary
      if (← seen) = "[" then go (index x) else return x
  | primary => do
    let t ← seen
    if t = "true" then
      step
      build (b.makeLeaf (.truth true))
    else if t = "false" then
      step
      build (b.makeLeaf (.truth false))
    else if t = Context.infinityName then
      step
      build (b.makeLeaf .infinity)
    else if t.isImaginary then
      step
      let im ← number t.magnitude
      build (b.makeLeaf (.complex (.int 0) im))
    else if t.isInteger then
      step
      let n ← integer t
      build (b.makeLeaf (.int n))
    else if t.isReal then
      step
      let x ← decimal t
      build (b.makeLeaf (.real x))
    else if ctx.isIrrational t then
      step
      build (b.makeLeaf (.irrational t))
    else if ctx.isFunction t then go call
    else if t.isIdentifier then
      step
      build (b.makeLeaf (.var t))
    else if t = "(" then
      step
      let x ← go term
      closed ")" .expectedParen (pure x)
    else if t = "|" then
      step
      let x ← go term
      closed "|" .expectedBar (b.makeNode "abs" [x] [])
    else if t = "[" then go brackets
    else if t = "\x7b" then go braces
    else reject (if t = Token.endMark then .unexpectedEnd else .unexpectedToken) none
  | call => do
    let name ← seen
    step
    let dims ← dimensions (go unary)
    if (← seen) = "(" then
      step
      if 0 ∈ ctx.arities name then counted ctx b name dims []
      else
        let args ← listed (go term) (go term)
        counted ctx b name dims args
    else if 1 ∈ ctx.arities name ∧ dims.isEmpty then
      let x ← go unary
      build (b.makeNode name [x] [])
    else reject .expectedCall (some ("function " ++ name))
  | index x => do
    step
    let i ← go term
    if (← seen) = "," then
      step
      let j ← go term
      closedIndex b "index2" [x, i, j]
    else closedIndex b "index1" [x, i]
  | vector => do
    step
    go elements
  | elements => do
    if (← seen) = "]" then closed "]" .expectedBracket (b.makeNode "vec" [] [])
    else
      let xs ← listed (go term) (go term)
      closed "]" .expectedBracket (b.makeNode "vec" xs [])
  | brackets => do
    step
    if (← seen) = "[" then
      let (first, later) ← series .rows (go vector) do
        if (← seen) = "[" then go vector else reject .expectedOpenBracket none
      closed "]" .expectedBracket (b.makeNode "matrix" (first :: later.map (·.2)) [])
    else go elements
  | braces => do
    step
    let xs ← listed (go term) (go term)
    closed "\x7d" .expectedBrace (b.makeNode "set" xs [])

/-- Calls a routine with room for so many calls within one another. -/
def within : Nat → Routine τ → Descent σ τ
  | 0, _ => exhaust
  | room + 1, r => body ctx b (within room) r

end Routine

namespace Descent

variable {σ α : Type}

/-- The outcome of a run, without the stream. -/
def outcome : EStateM.Result Stop (TokenStream × σ) α → EStateM.Result Stop σ α
  | .ok x s => .ok x s.2
  | .error e s => .error e s.2

/-- The stream as a run leaves it. -/
def streamLeft : EStateM.Result Stop (TokenStream × σ) α → TokenStream
  | .ok _ s | .error _ s => s.1

/-- Ends a run at the end of the stream, and nowhere else. -/
def finish (x : α) : Descent σ α := fun s =>
  if s.1.AtEnd then .ok x s else .error (.failed (s.1.reject .trailingTokens none)) s

end Descent

namespace Grammar

variable {σ τ : Type} (ctx : Context) (b : Builder σ τ)

/-- Reads a stream from its start to its end, with room for so many calls. -/
def descend (room : Nat) : Descent σ τ := do
  Descent.step
  let x ← Routine.within ctx b room .term
  Descent.finish x

end Grammar

end TermReader
