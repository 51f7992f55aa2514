import TermReader.Grammar.Reader

/-!
The reader as equations between functions of the cursor. A value is read together with
the cursor behind it, and the bound that makes reading end is left out. What reads on at
one cursor can then read on at any other, so runs from different cursors can be compared.
-/

namespace TermReader

namespace Reading

variable {σ α β : Type} {n k : Nat}

/-- A value that is read and the cursor behind it. -/
def bare (m : Reading σ (Read n α)) : Reading σ (α × Cursor) := do
  let r ← m
  return (r.value, r.next)

/-- Reads, and goes on with the value at the cursor behind it. -/
def andThen (m : Reading σ (Read n α)) (f : α → Cursor → Reading σ β) : Reading σ β := do
  let r ← m
  f r.value r.next

theorem bare_bind (m : Reading σ α) (f : α → Reading σ (Read n β)) :
    (m >>= f).bare = m >>= fun x => (f x).bare := by
  simp only [bare, bind_assoc]

theorem bare_pure {x : α} {c : Cursor} (h : c.size < n) :
    (pure ⟨x, c, h⟩ : Reading σ (Read n α)).bare = pure (x, c) := by
  simp only [bare, pure_bind]

theorem bare_throw (e : Failure) :
    (throw e : Reading σ (Read n α)).bare = throw e := rfl

/-- What goes on after reading may be compared value by value. -/
theorem bare_read {m : Reading σ (Read n α)} {f : Read n α → Reading σ (Read k β)}
    {g : α → Cursor → Reading σ (β × Cursor)} (h : ∀ x c hc, (f ⟨x, c, hc⟩).bare = g x c) :
    (m >>= f).bare = m.andThen g := by
  rw [bare_bind]
  exact bind_congr fun r => h r.value r.next r.size_lt

/-- The bound may change behind what is read. -/
theorem bare_resume (m : Reading σ (Read n α)) (h : ∀ r : Read n α, r.next.size < k) :
    (m >>= fun r => pure (⟨r.value, r.next, h r⟩ : Read k α)).bare = m.bare :=
  (bare_bind _ _).trans (bind_congr fun _ => bare_pure _)

theorem bare_ite {p : Prop} [Decidable p] {m m' : Reading σ (Read n α)}
    {f f' : Reading σ (α × Cursor)} (h : m.bare = f) (h' : m'.bare = f') :
    (if p then m else m').bare = if p then f else f' := by
  split
  · exact h
  · exact h'

theorem bare_dite {p : Prop} [Decidable p] {m : p → Reading σ (Read n α)}
    {m' : ¬ p → Reading σ (Read n α)} {f f' : Reading σ (α × Cursor)} (h : ∀ hp, (m hp).bare = f)
    (h' : ∀ hp, (m' hp).bare = f') : (dite p m m').bare = if p then f else f' := by
  split
  · exact h _
  · exact h' _

end Reading

namespace Grammar

open Reading

variable {σ τ : Type} (ctx : Context) (b : Builder σ τ)

/-- The end of a phrase: a closing symbol, behind which a value is made. -/
def closed (symbol : Token) (reason : Reason) (m : Reading σ τ) (c : Cursor) :
    Reading σ (τ × Cursor) := do
  c.expect symbol reason
  let value ← m
  return (value, c.next)

/-- The end of an index, which is closed after the value has been made. -/
def closedIndex (op : String) (args : List τ) (c : Cursor) : Reading σ (τ × Cursor) := do
  let value ← b.makeNode op args []
  c.expect "]" .expectedBracket
  return (value, c.next)

/-- What may follow a primary phrase. -/
def indexed (x : τ) (c : Cursor) : Reading σ (τ × Cursor) :=
  if c.lookahead = "[" then
    (phrase ctx b .term c.next).andThen fun i c₁ =>
      if c₁.lookahead = "," then
        (phrase ctx b .term c₁.next).andThen fun j => closedIndex b "index2" [x, i, j]
      else closedIndex b "index1" [x, i] c₁
  else pure (x, c)

/-- The end of a call: its arguments are closed and counted. -/
def counted (name : Token) (dims args : List τ) (c : Cursor) : Reading σ (τ × Cursor) := do
  c.expect ")" .expectedParen
  if args.length ∈ ctx.arities name then
    let value ← b.makeNode name args dims
    return (value, c.next)
  else throw (c.next.reject .wrongArgumentCount (some (callDetail name args.length)))

/-- A call behind its dimensions. -/
def applied (name : Token) (dims : List τ) (c : Cursor) : Reading σ (τ × Cursor) :=
  if c.lookahead = "(" then
    if 0 ∈ ctx.arities name then counted ctx b name dims [] c.next
    else (arguments ctx b c.next).andThen (counted ctx b name dims)
  else if 1 ∈ ctx.arities name ∧ dims.isEmpty then
    (phrase ctx b .unary c).andThen fun x c₁ => do
      let value ← b.makeNode name [x] []
      return (value, c₁)
  else throw (c.reject .expectedCall (some ("function " ++ name)))

/-- A matrix or a vector behind its opening bracket. -/
def bracketed (c : Cursor) : Reading σ (τ × Cursor) :=
  if c.lookahead = "[" then
    (series ctx b .rows c).andThen fun xs =>
      closed "]" .expectedBracket (b.makeNode "matrix" (xs.1 :: xs.2.map (·.2)) [])
  else (phrase ctx b .elements c).bare

/-- A primary phrase, from what the token at the cursor opens. -/
def opened : Context.Opening → Cursor → Reading σ (τ × Cursor)
  | .leaf l, c => do
    let value ← b.makeLeaf l
    return (value, c.next)
  | .excess digits, _ => throw (.excessDigits digits)
  | .call, c => (dimensions ctx b c.next).andThen (applied ctx b c.lookahead)
  | .paren, c => (phrase ctx b .term c.next).andThen fun x => closed ")" .expectedParen (pure x)
  | .bar, c => (phrase ctx b .term c.next).andThen fun x =>
      closed "|" .expectedBar (b.makeNode "abs" [x] [])
  | .bracket, c => bracketed ctx b c.next
  | .brace, c => (series ctx b .terms c.next).andThen fun xs =>
      closed "\x7d" .expectedBrace (b.makeNode "set" (xs.1 :: xs.2.map (·.2)) [])
  | .none, c => throw (c.reject
      (if c.lookahead = Token.endMark then .unexpectedEnd else .unexpectedToken) none)

/-- One more operand of a series behind its joint, and all that follow it. -/
def stepped (k : Series) (j : Joint) (c : Cursor) : Reading σ (List (Token × τ) × Cursor) :=
  (phrase ctx b k.operand c).andThen fun x c₁ =>
    (more ctx b k c₁).andThen fun later c₂ => pure ((j.operator, x) :: later, c₂)

section Equations

variable (c : Cursor)

theorem bare_tier (t : Tier) :
    (phrase ctx b (.tier t) c).bare =
      (phrase ctx b t.operand c).andThen fun left c₁ =>
        if c₁.lookahead ∈ t.operators then
          (phrase ctx b t.operand c₁.next).andThen fun right c₂ => do
            let value ← b.makeNode c₁.lookahead [left, right] []
            return (value, c₂)
        else pure (left, c₁) := by
  rw [phrase]
  refine bare_read fun left c₁ _ => ?_
  exact bare_ite (bare_read fun right c₂ _ => bare_bind _ _) (bare_pure _)

theorem bare_sum :
    (phrase ctx b .sum c).bare =
      (series ctx b .summands c).andThen fun xs c₁ => do
        let value ← b.makeSum xs.1 xs.2
        return (value, c₁) := by
  rw [phrase]
  exact bare_read fun xs c₁ _ => bare_bind _ _

theorem bare_product :
    (phrase ctx b .product c).bare =
      (series ctx b .factors c).andThen fun xs c₁ => do
        let value ← b.makeProduct xs.1 xs.2
        return (value, c₁) := by
  rw [phrase]
  exact bare_read fun xs c₁ _ => bare_bind _ _

theorem bare_power :
    (phrase ctx b .power c).bare =
      (phrase ctx b .unary c).andThen fun base c₁ =>
        if c₁.lookahead = "^" then
          (phrase ctx b .unary c₁.next).andThen fun exponent c₂ => do
            let value ← b.makeNode "^" [base, exponent] []
            return (value, c₂)
        else pure (base, c₁) := by
  rw [phrase]
  refine bare_read fun base c₁ _ => ?_
  exact bare_ite (bare_read fun exponent c₂ _ => bare_bind _ _) (bare_pure _)

theorem bare_unary :
    (phrase ctx b .unary c).bare =
      if c.lookahead = "-" then
        (phrase ctx b .product c.next).andThen fun x c₁ => do
          let value ← b.makeNode ".-" [x] []
          return (value, c₁)
      else if c.lookahead = "!" then
        (phrase ctx b .primary c.next).andThen fun x c₁ => do
          let value ← b.makeNode "!" [x] []
          return (value, c₁)
      else (phrase ctx b .primary c).andThen (indexed ctx b) := by
  conv => lhs; rw [phrase]
  refine bare_dite (fun _ => ?_) fun _ => bare_dite (fun _ => ?_) fun _ => ?_
  · exact bare_read fun x c₁ _ => bare_bind _ _
  · exact bare_read fun x c₁ _ => bare_bind _ _
  · refine bare_read fun x c₁ _ => ?_
    rw [indexed]
    refine bare_ite (bare_read fun i c₂ _ => ?_) (bare_pure _)
    refine bare_ite (bare_read fun j c₃ _ => ?_) ?_
    · exact (bare_bind _ _).trans (bind_congr fun _ => bare_bind _ _)
    · exact (bare_bind _ _).trans (bind_congr fun _ => bare_bind _ _)

theorem bare_row :
    (phrase ctx b .row c).bare =
      if c.lookahead = "[" then (phrase ctx b .elements c.next).bare
      else throw (c.reject .expectedOpenBracket none) := by
  rw [phrase]
  exact bare_dite (fun _ => bare_resume _ _) fun _ => bare_throw _

theorem bare_elements :
    (phrase ctx b .elements c).bare =
      if c.lookahead = "]" then do
        let value ← b.makeNode "vec" [] []
        return (value, c.next)
      else
        (series ctx b .terms c).andThen fun xs =>
          closed "]" .expectedBracket (b.makeNode "vec" (xs.1 :: xs.2.map (·.2)) []) := by
  rw [phrase]
  refine bare_dite (fun _ => bare_bind _ _) fun _ => bare_read fun xs c₁ _ => ?_
  exact (bare_bind _ _).trans (bind_congr fun _ => bare_bind _ _)

theorem bare_series (k : Series) :
    (series ctx b k c).bare =
      (phrase ctx b k.operand c).andThen fun first c₁ =>
        (more ctx b k c₁).andThen fun later c₂ => pure ((first, later), c₂) := by
  rw [series]
  exact bare_read fun first c₁ _ => bare_read fun later c₂ _ => bare_pure _

theorem bare_more (k : Series) :
    (more ctx b k c).bare =
      match k.joint? c.lookahead with
      | none => pure ([], c)
      | some j => stepped ctx b k j (c.past j) := by
  rw [more]
  cases k.joint? c.lookahead with
  | none => exact bare_pure _
  | some j => exact bare_read fun x c₁ _ => bare_read fun later c₂ _ => bare_pure _

theorem bare_dimensions :
    (dimensions ctx b c).bare =
      if c.lookahead = "<" then
        (series ctx b .dimensions c.next).andThen fun xs =>
          closed ">" .expectedAngle (pure (xs.1 :: xs.2.map (·.2)))
      else pure ([], c) := by
  rw [dimensions]
  refine bare_ite (bare_read fun xs c₁ _ => ?_) (bare_pure _)
  exact (bare_bind _ _).trans (bind_congr fun _ => bare_pure _)

theorem bare_arguments :
    (arguments ctx b c).bare =
      (series ctx b .terms c).andThen fun xs c₁ => pure (xs.1 :: xs.2.map (·.2), c₁) := by
  rw [arguments]
  exact bare_read fun xs c₁ _ => bare_pure _

theorem andThen_arguments {α : Type} (f : List τ → Cursor → Reading σ α) :
    (arguments ctx b c).andThen f =
      (series ctx b .terms c).andThen fun xs => f (xs.1 :: xs.2.map (·.2)) := by
  have hbare : (arguments ctx b c).andThen f =
      (arguments ctx b c).bare >>= fun y => f y.1 y.2 := by
    rw [andThen, bare, bind_assoc]
    rfl
  rw [hbare, bare_arguments, andThen, bind_assoc]
  rfl

theorem bare_call (hend : c.rest ≠ []) :
    (call ctx b c hend).bare =
      (dimensions ctx b c.next).andThen (applied ctx b c.lookahead) := by
  have hcounted (dims args : List τ) (c₁ : Cursor) {n : Nat} (h : c₁.next.size < n) :
      (c₁.expect ")" .expectedParen >>= fun _ =>
        if args.length ∈ ctx.arities c.lookahead then
          b.makeNode c.lookahead args dims >>= fun x => pure (⟨x, c₁.next, h⟩ : Read n τ)
        else throw (c₁.next.reject .wrongArgumentCount
          (some (callDetail c.lookahead args.length)))).bare =
      counted ctx b c.lookahead dims args c₁ :=
    (bare_bind _ _).trans (bind_congr fun _ => bare_ite (bare_bind _ _) (bare_throw _))
  rw [call]
  refine bare_read fun dims c₁ _ => bare_ite ?_ (bare_ite ?_ (bare_throw _))
  · split
    · rw [pure_bind]
      exact hcounted dims [] c₁.next _
    · exact bare_read fun args c₂ _ => hcounted dims args c₂ _
  · exact bare_read fun x c₂ _ => bare_bind _ _

theorem bare_primary :
    (phrase ctx b .primary c).bare =
      if c.rest = [] then throw (c.reject .unexpectedEnd none)
      else opened ctx b (ctx.opening c.lookahead) c := by
  rw [phrase]
  refine bare_dite (fun _ => bare_throw _) fun hend => ?_
  cases ctx.opening c.lookahead with
  | leaf l => exact bare_bind _ _
  | excess digits => exact bare_throw _
  | call => exact bare_call ctx b c hend
  | paren =>
    rw [opened]
    dsimp only
    refine bare_read fun x c₁ _ => ?_
    exact (bare_bind _ _).trans (bind_congr fun _ => bare_pure _)
  | bar =>
    rw [opened]
    dsimp only
    refine bare_read fun x c₁ _ => ?_
    exact (bare_bind _ _).trans (bind_congr fun _ => bare_bind _ _)
  | bracket =>
    rw [opened, bracketed]
    dsimp only
    refine bare_ite (bare_read fun xs c₁ _ => ?_) (bare_resume _ _)
    exact (bare_bind _ _).trans (bind_congr fun _ => bare_bind _ _)
  | brace =>
    rw [opened]
    dsimp only
    refine bare_read fun xs c₁ _ => ?_
    exact (bare_bind _ _).trans (bind_congr fun _ => bare_bind _ _)
  | none => exact bare_throw _

end Equations

end Grammar

end TermReader
