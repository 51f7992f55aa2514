import TermReader.Proofs.Begins
import TermReader.Proofs.EndMark

/-!
Reading ends on every input. What the reader does at a cursor is cut into tasks, and a task is
carried out with the further tasks that arise from it left open, so nothing in it bounds how
deeply tasks are nested. In a well named context every task that arises has fewer tokens left or
a lower rank, and so the nesting is bounded by the tokens and the ranks. Each task fails or takes
tokens from the input, none of which is an end mark.
-/

namespace TermReader

theorem Context.WellNamed.opening_endMark {ctx : Context} (hctx : ctx.WellNamed) :
    ctx.opening Token.endMark = .none :=
  hctx.opening_of_symbolic (by decide)

/-- What may be done at a cursor: to read a phrase, what the first token of a primary phrase
opens, the index behind a primary phrase, the rest of a series, or the dimensions of a call. -/
inductive Task (τ : Type)
  | phrase (p : Phrase)
  | opened (o : Context.Opening)
  | index (x : τ)
  | more (k : Series)
  | dimensions

/-- Reading that may also be given up, since tasks are nested too deeply. -/
abbrev Attempt (σ : Type) := EStateM (Option Failure) σ

namespace Reading

variable {σ α β : Type}

/-- Reading that is not given up. -/
def attempt (m : Reading σ α) : Attempt σ α := EStateM.adaptExcept some m

theorem attempt_of_ok {m : Reading σ α} {x : α} {s s' : σ} (h : m s = .ok x s') :
    m.attempt s = .ok x s' := by
  simp only [attempt, EStateM.adaptExcept, h]

theorem attempt_of_error {m : Reading σ α} {e : Failure} {s s' : σ} (h : m s = .error e s') :
    m.attempt s = .error (some e) s' := by
  simp only [attempt, EStateM.adaptExcept, h]

theorem attempt_bind (m : Reading σ α) (f : α → Reading σ β) :
    attempt (m >>= f) = m.attempt >>= fun x => (f x).attempt := by
  funext s
  simp only [attempt, EStateM.adaptExcept, Bind.bind, EStateM.bind]
  cases m s with
  | ok x s' => rfl
  | error e s' => rfl

/-- What is made of what has been read, and the cursor behind it. -/
theorem attempt_value (m : Reading σ α) (c : Cursor) :
    (m.attempt >>= fun x => pure (x, c)) = Reading.attempt (m >>= fun x => pure (x, c)) :=
  (attempt_bind m fun x => pure (x, c)).symm

theorem attempt_ite {p : Prop} [Decidable p] {m m' : Reading σ α} {a a' : Attempt σ α}
    (h : a = m.attempt) (h' : a' = m'.attempt) :
    (if p then a else a') = Reading.attempt (if p then m else m') := by
  rw [h, h', apply_ite Reading.attempt]

/-- What goes on after reading may be compared at the cursors that reading can come to. -/
theorem attempt_andThen {n : Nat} {m : Reading σ (Read n α)} {f : α → Cursor → Reading σ β}
    {g : α × Cursor → Attempt σ β} (h : ∀ x d, d.size < n → g (x, d) = (f x d).attempt) :
    m.bare.attempt >>= g = (m.andThen f).attempt := by
  rw [bare, andThen, attempt_bind, attempt_bind, bind_assoc]
  exact bind_congr fun r => h r.value r.next r.size_lt

theorem size_lt_of_bare {n : Nat} {m : Reading σ (Read n α)} {x : α} {d : Cursor} {s s' : σ}
    (h : m.bare s = .ok (x, d) s') : d.size < n := by
  cases hm : m s with
  | ok r s₁ =>
    rw [bare_of_ok hm] at h
    cases h
    exact r.size_lt
  | error e s₁ =>
    rw [bare_of_error hm] at h
    cases h

end Reading

namespace Task

variable {σ τ : Type}

/-- What is read by a task. -/
abbrev Value : Task τ → Type
  | phrase _ | opened _ | index _ => τ
  | more _ => List (Token × τ)
  | dimensions => List τ

/-- Where a task arises. -/
def Due (ctx : Context) : Task τ → Cursor → Prop
  | opened o, c => ctx.opening c.lookahead = o
  | index _, c => c.lookahead = "["
  | phrase _, _ | more _, _ | dimensions, _ => True

/-- Tasks of lower rank may arise at the same cursor. -/
def rank : Task τ → Nat
  | phrase p => p.rank
  | opened _ => 1
  | index _ | more _ | dimensions => 15

/-- The tokens that are left, and the rank of what is done at them. -/
def weight (t : Task τ) (c : Cursor) : Nat := 16 * c.size + t.rank

/-- A series may have no further operands and a call no dimensions. All else takes a token. -/
def least : Task τ → Nat
  | phrase _ | opened _ | index _ => 1
  | more _ | dimensions => 0

/-- A way to carry out tasks, which may be given up. -/
abbrev Performer (σ τ : Type) := (t : Task τ) → Cursor → Attempt σ (t.Value × Cursor)

variable (ctx : Context) (b : Builder σ τ)

/-- What the reader does. -/
def read : (t : Task τ) → Cursor → Reading σ (t.Value × Cursor)
  | phrase p, c => (Grammar.phrase ctx b p c).bare
  | opened o, c => Grammar.opened ctx b o c
  | index x, c => Grammar.indexed ctx b x c
  | more k, c => (Grammar.more ctx b k c).bare
  | dimensions, c => (Grammar.dimensions ctx b c).bare

/-- A first operand and all that follow it in a series. -/
def joined (go : Performer σ τ) (k : Series) (c : Cursor) :
    Attempt σ ((τ × List (Token × τ)) × Cursor) := do
  let (first, c₁) ← go (phrase k.operand) c
  let (later, c₂) ← go (more k) c₁
  return ((first, later), c₂)

/-- Carries out a task by the rules of the grammar. The tasks that arise are carried out in the
given way, whatever they are. -/
def perform (go : Performer σ τ) : Performer σ τ
  | phrase (.tier t), c => do
    let (left, c₁) ← go (phrase t.operand) c
    if c₁.lookahead ∈ t.operators then
      let (right, c₂) ← go (phrase t.operand) c₁.next
      let value ← (b.makeNode c₁.lookahead [left, right] []).attempt
      return (value, c₂)
    else return (left, c₁)
  | phrase .sum, c => do
    let ((first, later), c₁) ← joined go .summands c
    let value ← (b.makeSum first later).attempt
    return (value, c₁)
  | phrase .product, c => do
    let ((first, later), c₁) ← joined go .factors c
    let value ← (b.makeProduct first later).attempt
    return (value, c₁)
  | phrase .power, c => do
    let (base, c₁) ← go (phrase .unary) c
    if c₁.lookahead = "^" then
      let (exponent, c₂) ← go (phrase .unary) c₁.next
      let value ← (b.makeNode "^" [base, exponent] []).attempt
      return (value, c₂)
    else return (base, c₁)
  | phrase .unary, c =>
    if c.lookahead = "-" then do
      let (x, c₁) ← go (phrase .product) c.next
      let value ← (b.makeNode ".-" [x] []).attempt
      return (value, c₁)
    else if c.lookahead = "!" then do
      let (x, c₁) ← go (phrase .primary) c.next
      let value ← (b.makeNode "!" [x] []).attempt
      return (value, c₁)
    else do
      let (x, c₁) ← go (phrase .primary) c
      if c₁.lookahead = "[" then go (index x) c₁ else return (x, c₁)
  | phrase .primary, c => go (opened (ctx.opening c.lookahead)) c
  | phrase .row, c =>
    if c.lookahead = "[" then go (phrase .elements) c.next
    else throw (some (c.reject .expectedOpenBracket none))
  | phrase .elements, c =>
    if c.lookahead = "]" then do
      let value ← (b.makeNode "vec" [] []).attempt
      return (value, c.next)
    else do
      let ((first, later), c₁) ← joined go .terms c
      (Grammar.closed "]" .expectedBracket
        (b.makeNode "vec" (first :: later.map (·.2)) []) c₁).attempt
  | index x, c => do
    let (i, c₁) ← go (phrase .term) c.next
    if c₁.lookahead = "," then
      let (j, c₂) ← go (phrase .term) c₁.next
      (Grammar.closedIndex b "index2" [x, i, j] c₂).attempt
    else (Grammar.closedIndex b "index1" [x, i] c₁).attempt
  | opened (.leaf l), c => do
    let value ← (b.makeLeaf l).attempt
    return (value, c.next)
  | opened (.excess digits), _ => throw (some (.excessDigits digits))
  | opened .call, c => do
    let (dims, c₁) ← go dimensions c.next
    if c₁.lookahead = "(" then
      if 0 ∈ ctx.arities c.lookahead then
        (Grammar.counted ctx b c.lookahead dims [] c₁.next).attempt
      else
        let ((first, later), c₂) ← joined go .terms c₁.next
        (Grammar.counted ctx b c.lookahead dims (first :: later.map (·.2)) c₂).attempt
    else if 1 ∈ ctx.arities c.lookahead ∧ dims.isEmpty then
      let (x, c₂) ← go (phrase .unary) c₁
      let value ← (b.makeNode c.lookahead [x] []).attempt
      return (value, c₂)
    else throw (some (c₁.reject .expectedCall (some ("function " ++ c.lookahead))))
  | opened .paren, c => do
    let (x, c₁) ← go (phrase .term) c.next
    (Grammar.closed ")" .expectedParen (pure x) c₁).attempt
  | opened .bar, c => do
    let (x, c₁) ← go (phrase .term) c.next
    (Grammar.closed "|" .expectedBar (b.makeNode "abs" [x] []) c₁).attempt
  | opened .bracket, c =>
    if c.next.lookahead = "[" then do
      let ((first, later), c₁) ← joined go .rows c.next
      (Grammar.closed "]" .expectedBracket
        (b.makeNode "matrix" (first :: later.map (·.2)) []) c₁).attempt
    else go (phrase .elements) c.next
  | opened .brace, c => do
    let ((first, later), c₁) ← joined go .terms c.next
    (Grammar.closed "\x7d" .expectedBrace
      (b.makeNode "set" (first :: later.map (·.2)) []) c₁).attempt
  | opened .none, c => throw (some (c.reject
      (if c.lookahead = Token.endMark then .unexpectedEnd else .unexpectedToken) none))
  | more k, c =>
    match k.joint? c.lookahead with
    | none => pure ([], c)
    | some j => do
      let (x, c₁) ← go (phrase k.operand) (c.past j)
      let (later, c₂) ← go (more k) c₁
      return ((j.operator, x) :: later, c₂)
  | dimensions, c =>
    if c.lookahead = "<" then do
      let ((first, later), c₁) ← joined go .dimensions c.next
      (Grammar.closed ">" .expectedAngle (pure (first :: later.map (·.2))) c₁).attempt
    else pure ([], c)

/-- Carries out tasks that are nested less deeply than the bound, and gives up all others. -/
def within : Nat → Performer σ τ
  | 0 => fun _ _ => throw none
  | n + 1 => perform ctx b (within n)

/-- Tasks below the weight are carried out as the reader does. -/
def Agrees (go : Performer σ τ) (w : Nat) : Prop :=
  ∀ (t : Task τ) (c : Cursor), t.Due ctx c → t.weight c < w → go t c = (t.read ctx b c).attempt

variable {ctx b} {t u : Task τ} {c d : Cursor} {go : Performer σ τ}

theorem rank_le (t : Task τ) : t.rank ≤ 15 := by
  cases t with
  | phrase p => exact Nat.le_succ_of_le p.rank_le
  | opened o => exact (by decide : 1 ≤ 15)
  | _ => exact Nat.le_refl _

/-- With fewer tokens left, a task weighs less whatever it is. -/
theorem weight_lt_of_size_lt (h : d.size < c.size) : u.weight d < t.weight c := by
  have hrank := u.rank_le
  simp only [weight]
  omega

theorem weight_lt_of_rank_lt (h : u.rank < t.rank) : u.weight c < t.weight c :=
  Nat.add_lt_add_left h _

namespace Agrees

variable {w : Nat} (hgo : Agrees ctx b go w)

include hgo

theorem phrase {p : Phrase} (h : weight (phrase p : Task τ) c < w) :
    go (phrase p) c = (Grammar.phrase ctx b p c).bare.attempt :=
  hgo _ c trivial h

theorem more {k : Series} (h : weight (more k : Task τ) c < w) :
    go (more k) c = (Grammar.more ctx b k c).bare.attempt :=
  hgo _ c trivial h

theorem joined {k : Series} (h : weight (Task.phrase k.operand : Task τ) c < w) :
    joined go k c = (Grammar.series ctx b k c).bare.attempt := by
  rw [Task.joined, hgo.phrase h, Grammar.bare_series]
  refine Reading.attempt_andThen fun first c₁ h₁ => ?_
  dsimp only
  rw [hgo.more ((weight_lt_of_size_lt h₁).trans h)]
  exact Reading.attempt_andThen fun later c₂ _ => rfl

end Agrees

/-! One step of each kind of task. Where the tasks that arise from it are carried out as the
reader does, so is the task itself. -/

section Steps

theorem perform_tier {t : Tier} (hgo : Agrees ctx b go (weight (phrase (.tier t) : Task τ) c)) :
    perform ctx b go (phrase (.tier t)) c = (Grammar.phrase ctx b (.tier t) c).bare.attempt := by
  rw [perform, hgo.phrase (weight_lt_of_rank_lt t.rank_operand_lt), Grammar.bare_tier]
  refine Reading.attempt_andThen fun left c₁ h₁ => Reading.attempt_ite ?_ rfl
  have hnext : c₁.next.size < c.size := Nat.lt_of_le_of_lt c₁.size_next_le h₁
  rw [hgo.phrase (weight_lt_of_size_lt hnext)]
  exact Reading.attempt_andThen fun right c₂ _ => Reading.attempt_value _ _

theorem perform_sum (hgo : Agrees ctx b go (weight (phrase .sum : Task τ) c)) :
    perform ctx b go (phrase .sum) c = (Grammar.phrase ctx b .sum c).bare.attempt := by
  have hrank : Series.summands.operand.rank < Phrase.sum.rank := by decide
  rw [perform, hgo.joined (k := .summands) (weight_lt_of_rank_lt hrank), Grammar.bare_sum]
  exact Reading.attempt_andThen fun xs c₁ _ => Reading.attempt_value _ _

theorem perform_product (hgo : Agrees ctx b go (weight (phrase .product : Task τ) c)) :
    perform ctx b go (phrase .product) c = (Grammar.phrase ctx b .product c).bare.attempt := by
  have hrank : Series.factors.operand.rank < Phrase.product.rank := by decide
  rw [perform, hgo.joined (k := .factors) (weight_lt_of_rank_lt hrank), Grammar.bare_product]
  exact Reading.attempt_andThen fun xs c₁ _ => Reading.attempt_value _ _

theorem perform_power (hgo : Agrees ctx b go (weight (phrase .power : Task τ) c)) :
    perform ctx b go (phrase .power) c = (Grammar.phrase ctx b .power c).bare.attempt := by
  have hrank : Phrase.unary.rank < Phrase.power.rank := by decide
  rw [perform, hgo.phrase (p := .unary) (weight_lt_of_rank_lt hrank), Grammar.bare_power]
  refine Reading.attempt_andThen fun base c₁ h₁ => Reading.attempt_ite ?_ rfl
  have hnext : c₁.next.size < c.size := Nat.lt_of_le_of_lt c₁.size_next_le h₁
  rw [hgo.phrase (weight_lt_of_size_lt hnext)]
  exact Reading.attempt_andThen fun exponent c₂ _ => Reading.attempt_value _ _

theorem perform_unary (hgo : Agrees ctx b go (weight (phrase .unary : Task τ) c)) :
    perform ctx b go (phrase .unary) c = (Grammar.phrase ctx b .unary c).bare.attempt := by
  rw [perform, Grammar.bare_unary]
  by_cases hminus : c.lookahead = "-"
  · have hnext := c.size_next_lt_of_eq "-" hminus (by decide)
    rw [if_pos hminus, if_pos hminus, hgo.phrase (weight_lt_of_size_lt hnext)]
    exact Reading.attempt_andThen fun x c₁ _ => Reading.attempt_value _ _
  rw [if_neg hminus, if_neg hminus]
  by_cases hnot : c.lookahead = "!"
  · have hnext := c.size_next_lt_of_eq "!" hnot (by decide)
    rw [if_pos hnot, if_pos hnot, hgo.phrase (weight_lt_of_size_lt hnext)]
    exact Reading.attempt_andThen fun x c₁ _ => Reading.attempt_value _ _
  rw [if_neg hnot, if_neg hnot]
  have hrank : Phrase.primary.rank < Phrase.unary.rank := by decide
  rw [hgo.phrase (p := .primary) (weight_lt_of_rank_lt hrank)]
  refine Reading.attempt_andThen fun x c₁ h₁ => ?_
  dsimp only
  split
  · next hopen => exact hgo (index x) c₁ hopen (weight_lt_of_size_lt h₁)
  · next hopen =>
    rw [Grammar.indexed, if_neg hopen]
    rfl

/-- A cursor behind all tokens sees an end mark, which opens nothing in a well named context. -/
theorem perform_primary (hctx : ctx.WellNamed)
    (hgo : Agrees ctx b go (weight (phrase .primary : Task τ) c)) :
    perform ctx b go (phrase .primary) c = (Grammar.phrase ctx b .primary c).bare.attempt := by
  have hrank : 1 < Phrase.primary.rank := by decide
  rw [perform, Grammar.bare_primary,
    hgo (opened (ctx.opening c.lookahead)) c rfl (weight_lt_of_rank_lt hrank), read]
  split
  · next hend =>
    have hmark : c.lookahead = Token.endMark := by rw [Cursor.lookahead, hend]; rfl
    rw [hmark, hctx.opening_endMark, Grammar.opened, if_pos hmark]
  · rfl

theorem perform_row (hgo : Agrees ctx b go (weight (phrase .row : Task τ) c)) :
    perform ctx b go (phrase .row) c = (Grammar.phrase ctx b .row c).bare.attempt := by
  rw [perform, Grammar.bare_row]
  split
  · next hopen =>
    have hnext := c.size_next_lt_of_eq "[" hopen (by decide)
    exact hgo.phrase (weight_lt_of_size_lt hnext)
  · rfl

theorem perform_elements (hgo : Agrees ctx b go (weight (phrase .elements : Task τ) c)) :
    perform ctx b go (phrase .elements) c = (Grammar.phrase ctx b .elements c).bare.attempt := by
  have hrank : Series.terms.operand.rank < Phrase.elements.rank := by decide
  rw [perform, Grammar.bare_elements, hgo.joined (k := .terms) (weight_lt_of_rank_lt hrank)]
  refine Reading.attempt_ite (Reading.attempt_value _ _) ?_
  exact Reading.attempt_andThen fun xs c₁ _ => rfl

theorem perform_index {x : τ} (hdue : c.lookahead = "[")
    (hgo : Agrees ctx b go (weight (index x) c)) :
    perform ctx b go (index x) c = (Grammar.indexed ctx b x c).attempt := by
  have hnext := c.size_next_lt_of_eq "[" hdue (by decide)
  rw [perform, Grammar.indexed, if_pos hdue, hgo.phrase (weight_lt_of_size_lt hnext)]
  refine Reading.attempt_andThen fun i c₁ h₁ => Reading.attempt_ite ?_ rfl
  have hnext₁ : c₁.next.size < c.size :=
    Nat.lt_of_le_of_lt c₁.size_next_le (Nat.lt_trans h₁ hnext)
  rw [hgo.phrase (weight_lt_of_size_lt hnext₁)]
  exact Reading.attempt_andThen fun j c₂ _ => rfl

theorem perform_more {k : Series} (hgo : Agrees ctx b go (weight (more k : Task τ) c)) :
    perform ctx b go (more k) c = (Grammar.more ctx b k c).bare.attempt := by
  rw [perform, Grammar.bare_more]
  cases hjoint : k.joint? c.lookahead with
  | none => rfl
  | some j =>
    have hpast := c.size_past_le j
    have hrank : k.operand.rank < 15 := by
      have hle := k.rank_le
      have hlt := k.rank_operand_lt
      omega
    have hweight : weight (phrase k.operand : Task τ) (c.past j) < weight (more k : Task τ) c := by
      simp only [weight, rank]
      omega
    dsimp only
    rw [hgo.phrase hweight, Grammar.stepped]
    refine Reading.attempt_andThen fun x c₁ h₁ => ?_
    dsimp only
    rw [hgo.more (weight_lt_of_size_lt (Nat.lt_of_lt_of_le h₁ hpast))]
    exact Reading.attempt_andThen fun later c₂ _ => rfl

theorem perform_dimensions (hgo : Agrees ctx b go (weight (dimensions : Task τ) c)) :
    perform ctx b go dimensions c = (Grammar.dimensions ctx b c).bare.attempt := by
  rw [perform, Grammar.bare_dimensions]
  by_cases hopen : c.lookahead = "<"
  · have hnext := c.size_next_lt_of_eq "<" hopen (by decide)
    rw [if_pos hopen, if_pos hopen, hgo.joined (weight_lt_of_size_lt hnext)]
    exact Reading.attempt_andThen fun xs c₁ _ => rfl
  · rw [if_neg hopen, if_neg hopen]
    rfl

theorem perform_call (hnext : c.next.size < c.size)
    (hgo : Agrees ctx b go (weight (opened .call : Task τ) c)) :
    perform ctx b go (opened .call) c = (Grammar.opened ctx b .call c).attempt := by
  have hdims : go dimensions c.next = (Grammar.dimensions ctx b c.next).bare.attempt :=
    hgo dimensions c.next trivial (weight_lt_of_size_lt hnext)
  rw [perform, Grammar.opened, hdims]
  refine Reading.attempt_andThen fun dims c₁ h₁ => ?_
  have hle : c₁.size < c.size := Nat.lt_of_le_of_lt (Nat.le_of_lt_succ h₁) hnext
  refine Reading.attempt_ite (Reading.attempt_ite rfl ?_) (Reading.attempt_ite ?_ rfl)
  · have hnext₁ : c₁.next.size < c.size := Nat.lt_of_le_of_lt c₁.size_next_le hle
    rw [hgo.joined (weight_lt_of_size_lt hnext₁), Grammar.andThen_arguments]
    exact Reading.attempt_andThen fun xs c₂ _ => rfl
  · rw [hgo.phrase (weight_lt_of_size_lt hle)]
    exact Reading.attempt_andThen fun x c₂ _ => Reading.attempt_value _ _

theorem perform_opened {o : Context.Opening} (hctx : ctx.WellNamed)
    (hdue : ctx.opening c.lookahead = o) (hgo : Agrees ctx b go (weight (opened o : Task τ) c)) :
    perform ctx b go (opened o) c = (Grammar.opened ctx b o c).attempt := by
  by_cases hnone : o = .none
  · subst hnone
    rfl
  have hnext : c.next.size < c.size := by
    refine c.size_next_lt (c.rest_ne_nil fun hmark => hnone ?_)
    rw [← hdue, hmark, hctx.opening_endMark]
  cases o with
  | leaf l => exact Reading.attempt_value _ _
  | excess digits => rfl
  | none => exact absurd rfl hnone
  | call => exact perform_call hnext hgo
  | paren =>
    rw [perform, Grammar.opened, hgo.phrase (weight_lt_of_size_lt hnext)]
    exact Reading.attempt_andThen fun x c₁ _ => rfl
  | bar =>
    rw [perform, Grammar.opened, hgo.phrase (weight_lt_of_size_lt hnext)]
    exact Reading.attempt_andThen fun x c₁ _ => rfl
  | bracket =>
    rw [perform, Grammar.opened, Grammar.bracketed]
    refine Reading.attempt_ite ?_ (hgo.phrase (weight_lt_of_size_lt hnext))
    rw [hgo.joined (weight_lt_of_size_lt hnext)]
    exact Reading.attempt_andThen fun xs c₁ _ => rfl
  | brace =>
    rw [perform, Grammar.opened, hgo.joined (weight_lt_of_size_lt hnext)]
    exact Reading.attempt_andThen fun xs c₁ _ => rfl

/-- One step: a task is carried out as the reader does where all tasks of less weight are. -/
theorem perform_eq (hctx : ctx.WellNamed) (hdue : t.Due ctx c)
    (hgo : Agrees ctx b go (t.weight c)) :
    perform ctx b go t c = (t.read ctx b c).attempt := by
  cases t with
  | opened o => exact perform_opened hctx hdue hgo
  | index x => exact perform_index hdue hgo
  | more k => exact perform_more hgo
  | dimensions => exact perform_dimensions hgo
  | phrase p =>
    cases p with
    | tier t => exact perform_tier hgo
    | sum => exact perform_sum hgo
    | product => exact perform_product hgo
    | power => exact perform_power hgo
    | unary => exact perform_unary hgo
    | primary => exact perform_primary hctx hgo
    | row => exact perform_row hgo
    | elements => exact perform_elements hgo

/-- The run: a task is not given up if the bound exceeds its weight. -/
theorem within_eq (hctx : ctx.WellNamed) {n : Nat} (hdue : t.Due ctx c) (hn : t.weight c < n) :
    within ctx b n t c = (t.read ctx b c).attempt := by
  induction n generalizing t c with
  | zero => exact absurd hn (Nat.not_lt_zero _)
  | succ n ih =>
    exact perform_eq hctx hdue fun u d hu hd => ih hu (Nat.lt_of_lt_of_le hd (Nat.le_of_lt_succ hn))

end Steps

end Task

/-- The cursor `d` stands behind the tokens that are taken from the cursor `c` on, and none of
them is an end mark. -/
structure Cursor.Consumes (c : Cursor) (taken : List Token) (d : Cursor) : Prop where
  rest_eq : c.rest = taken ++ d.rest
  position_eq : d.position = c.position + taken.length
  endMark_notMem : Token.endMark ∉ taken

theorem Cursor.Consumes.size_eq {c d : Cursor} {taken : List Token} (h : c.Consumes taken d) :
    c.size = taken.length + d.size := by
  rw [size, h.rest_eq, List.length_append]
  rfl

theorem Cursor.Reaches.exists_consumes {ctx : Context} {c d : Cursor} (hctx : ctx.WellNamed)
    (h : c.Reaches ctx d) : ∃ taken, c.Consumes taken d := by
  induction h with
  | refl => exact ⟨[], rfl, rfl, List.not_mem_nil⟩
  | @next d h hpass ih =>
    obtain ⟨taken, htaken⟩ := ih
    refine ⟨taken ++ [d.lookahead], ?_, ?_, ?_⟩
    · rw [htaken.rest_eq, Cursor.rest_eq_lookahead_cons hpass.1, List.append_assoc]
      rfl
    · rw [List.length_append, ← Nat.add_assoc, ← htaken.position_eq]
      rfl
    · rw [List.mem_append, List.mem_singleton]
      rintro (hmem | hmark)
      · exact htaken.endMark_notMem hmem
      · exact hpass.ne_endMark hctx hmark.symm

section Settling

variable {σ τ α : Type} {ctx : Context} {b : Builder σ τ} {c : Cursor} {s : σ}

/-- An attempt has come to its end: it has failed, or it has taken so many tokens at least, and
no end mark. -/
inductive Settles (least : Nat) (c : Cursor) :
    EStateM.Result (Option Failure) σ (α × Cursor) → Prop
  | failed {e s} : Settles least c (.error (some e) s)
  | done {x d s taken} (h : c.Consumes taken d) (hleast : least ≤ taken.length) :
      Settles least c (.ok (x, d) s)

namespace Settles

theorem of_ends {least : Nat} {m : Reading σ (α × Cursor)} {d : Cursor} (hctx : ctx.WellNamed)
    (hends : Ends ctx c d (m s))
    (hleast : ∀ x d s', m s = .ok (x, d) s' → d.size + least ≤ c.size) :
    Settles least c (m.attempt s) := by
  cases h : m s with
  | error e s' =>
    rw [Reading.attempt_of_error h]
    exact .failed
  | ok y s' =>
    obtain ⟨x, d'⟩ := y
    rw [h] at hends
    obtain ⟨hreach⟩ := hends
    obtain ⟨taken, htaken⟩ := hreach.exists_consumes hctx
    have hsize := hleast x d s' h
    have heq := htaken.size_eq
    rw [Reading.attempt_of_ok h]
    exact .done htaken (by omega)

/-- What is local comes to an end, and it takes what the bound on what it leaves tells. -/
theorem of_localAt {least : Nat} {n : Cursor → Nat}
    {m : (d : Cursor) → Reading σ (Read (n d) α)} (hctx : ctx.WellNamed)
    (hm : LocalAt ctx (fun d => (m d).bare) c) (hn : n c + least ≤ c.size + 1) :
    Settles least c ((m c).bare.attempt s) := by
  obtain ⟨d, hends, -⟩ := hm 0 c (.refl 0 c) s
  refine of_ends hctx hends fun x d s' h => ?_
  have hlt := Reading.size_lt_of_bare h
  omega

theorem phrase (hctx : ctx.WellNamed) (p : Phrase) :
    Settles 1 c ((Grammar.phrase ctx b p c).bare.attempt s) :=
  of_localAt hctx ((Grammar.localAt ctx b).1 p c) (Nat.le_refl _)

/-- What the first token opens is all of a primary phrase. -/
theorem opened (hctx : ctx.WellNamed) {o : Context.Opening} (hdue : ctx.opening c.lookahead = o) :
    Settles 1 c ((Grammar.opened ctx b o c).attempt s) := by
  by_cases hend : c.rest = []
  · have hmark : c.lookahead = Token.endMark := by rw [Cursor.lookahead, hend]; rfl
    rw [← hdue, hmark, hctx.opening_endMark]
    exact .failed
  · have hprimary := phrase (b := b) (c := c) (s := s) hctx .primary
    rwa [Grammar.bare_primary, if_neg hend, hdue] at hprimary

/-- What is local behind the token at the cursor takes this token at least. -/
theorem of_next {m : Cursor → Reading σ (α × Cursor)} (hctx : ctx.WellNamed)
    (hm : LocalAt ctx m c.next) (hpass : c.Passable ctx) :
    Settles 1 c ((m c.next).attempt s) := by
  obtain ⟨d, hends, -⟩ := hm 0 c.next (.refl 0 _) s
  refine of_ends hctx (hends.from (.next .refl hpass)) fun x d' s' h => ?_
  rw [h] at hends
  obtain ⟨hreach⟩ := hends
  obtain ⟨taken, htaken⟩ := hreach.exists_consumes hctx
  have heq := htaken.size_eq
  have hlt := c.size_next_lt hpass.1
  omega

theorem index (hctx : ctx.WellNamed) {x : τ} (hdue : c.lookahead = "[") :
    Settles 1 c ((Grammar.indexed ctx b x c).attempt s) := by
  have hterm := (Grammar.localAt ctx b).1 .term
  have hinner : LocalAt ctx (fun d => (Grammar.phrase ctx b .term d).andThen fun i e =>
      if e.lookahead = "," then
        (Grammar.phrase ctx b .term e.next).andThen fun j =>
          Grammar.closedIndex b "index2" [x, i, j]
      else Grammar.closedIndex b "index1" [x, i] e) c.next := by
    refine .andThen (hterm c.next) fun i e _ =>
      .ifSymbol (fun hcomma => ?_) fun _ => .closedIndex _ _
    have hpass : e.Passable ctx := Cursor.passable_of_symbol hcomma (by decide)
    exact .andThen ((hterm e.next).next hpass) fun j f _ => .closedIndex _ _
  rw [Grammar.indexed, if_pos hdue]
  exact of_next hctx hinner (Cursor.passable_of_symbol hdue (by decide))

end Settles

/-- Whatever is due comes to an end. -/
theorem Task.settles {t : Task τ} (hctx : ctx.WellNamed) (hdue : t.Due ctx c) :
    Settles t.least c ((t.read ctx b c).attempt s) := by
  cases t with
  | phrase p => exact .phrase hctx p
  | opened o => exact .opened hctx hdue
  | index x => exact .index hctx hdue
  | more k => exact .of_localAt hctx ((Grammar.localAt ctx b).2.2.2.2.1 k c) (Nat.le_refl _)
  | dimensions => exact .of_localAt hctx ((Grammar.localAt ctx b).2.2.2.2.2 c) (Nat.le_refl _)

end Settling

namespace Grammar

variable {σ τ : Type} (ctx : Context) (b : Builder σ τ)

/-- Reads a whole token stream with tasks nested less deeply than the bound. -/
def readWithin (n : Nat) (tokens : List Token) : Attempt σ τ := do
  let (x, c) ← Task.within ctx b n (.phrase .term) (Cursor.start tokens)
  if c.rest = [Token.endMark] then return x else throw (some (c.reject .trailingTokens none))

variable {ctx b}

theorem readWithin_eq (hctx : ctx.WellNamed) {n : Nat} {tokens : List Token}
    (hn : 16 * (tokens.length + 1) ≤ n) :
    readWithin ctx b n tokens = (read ctx b tokens).attempt := by
  have hweight : (Task.phrase .term : Task τ).weight (Cursor.start tokens) < n := by
    have hrank : Phrase.term.rank < 16 := by decide
    simp only [Task.weight, Task.rank, Cursor.size, Cursor.start]
    omega
  have hterm : Task.within ctx b n (.phrase .term) (Cursor.start tokens) =
      (phrase ctx b .term (Cursor.start tokens)).bare.attempt :=
    Task.within_eq hctx trivial hweight
  rw [readWithin, hterm, read_eq]
  exact Reading.attempt_andThen fun x c _ => Reading.attempt_ite rfl rfl

variable (b)

/-- Reading ends on every input. The outcome of a task hangs on tasks of less weight alone, that
is, with fewer tokens left or of a lower rank. So no task is given up if tasks may be nested as
deeply as its weight, and then it fails or takes a token at least, which is no end mark; only the
rest of a series and the dimensions of a call may be empty. No token stream needs more than the
tokens and the ranks. -/
theorem reading_ends (hctx : ctx.WellNamed) :
    (∀ (t : Task τ) (c : Cursor) (go : Task.Performer σ τ), t.Due ctx c →
      Task.Agrees ctx b go (t.weight c) →
        Task.perform ctx b go t c = (t.read ctx b c).attempt) ∧
    (∀ (t : Task τ) (c : Cursor) (n : Nat), t.Due ctx c → t.weight c < n →
      Task.within ctx b n t c = (t.read ctx b c).attempt ∧
        ∀ s, Settles t.least c (Task.within ctx b n t c s)) ∧
    ∀ (tokens : List Token) (n : Nat), 16 * (tokens.length + 1) ≤ n →
      readWithin ctx b n tokens = (read ctx b tokens).attempt := by
  refine ⟨fun t c go hdue hgo => Task.perform_eq hctx hdue hgo, fun t c n hdue hn => ?_,
    fun tokens n hn => readWithin_eq hctx hn⟩
  have heq : Task.within ctx b n t c = (t.read ctx b c).attempt := Task.within_eq hctx hdue hn
  exact ⟨heq, fun s => heq ▸ Task.settles hctx hdue⟩

/-- An index that is closed takes its three tokens, and an input with one that is not fails. -/
theorem reading_ends_index :
    Context.standard.WellNamed ∧
      Settles 1 ⟨1, ["[", "1", "]", Token.endMark]⟩
        (Task.within .standard .terms 80 (.index (.leaf (.var "v")))
          ⟨1, ["[", "1", "]", Token.endMark]⟩ ()) ∧
      readWithin .standard .terms 80 ["v", "[", "1", Token.endMark] () =
        .error (some (.rejected ⟨.expectedBracket, Token.endMark, 3, none⟩)) () := by
  obtain ⟨-, htask, hread⟩ := reading_ends .terms Context.wellNamed_standard
  refine ⟨Context.wellNamed_standard, ?_, ?_⟩
  · exact (htask (.index (.leaf (.var "v"))) ⟨1, ["[", "1", "]", Token.endMark]⟩ 80 rfl
      (by decide)).2 ()
  · rw [hread ["v", "[", "1", Token.endMark] 80 (by decide)]
    exact Reading.attempt_of_error (by cbv)

end Grammar

end TermReader
