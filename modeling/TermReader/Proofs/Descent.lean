import TermReader.Proofs.Conversion
import TermReader.Proofs.Equations
import TermReader.Proofs.Openings
import TermReader.Grammar.Descent

/-!
The routines carry out what the reader does. A cursor that stands before an end mark corresponds
to a stream with the token at the cursor in sight; there each routine reads what its phrase reads,
stops where the phrase fails, or is given up for want of room. Calls within one another have
fewer tokens left or are of a lower rank, so room for sixteen calls a token is enough.
-/

namespace TermReader

namespace Cursor

/-- The stream with the token at the cursor in sight. -/
def stream (c : Cursor) (tokens : List Token) : TokenStream := ⟨tokens, c.position + 1, c.lookahead⟩

/-- The cursor stands at one of the tokens, and an end mark is not behind it. -/
structure StandsIn (c : Cursor) (tokens : List Token) : Prop where
  drop_eq : tokens.drop c.position = c.rest
  endMark_mem : Token.endMark ∈ c.rest

namespace StandsIn

variable {c : Cursor} {tokens : List Token}

theorem size_pos (h : c.StandsIn tokens) : 0 < c.size :=
  List.length_pos_of_mem h.endMark_mem

theorem size_le (h : c.StandsIn tokens) : c.size ≤ tokens.length := by
  rw [size, ← h.drop_eq, List.length_drop]
  exact Nat.sub_le _ _

theorem start (h : Token.endMark ∈ tokens) : (Cursor.start tokens).StandsIn tokens := ⟨rfl, h⟩

/-- What is not an end mark can be stepped over. -/
theorem next (h : c.StandsIn tokens) (hne : c.lookahead ≠ Token.endMark) :
    c.next.StandsIn tokens := by
  obtain ⟨t, rest, hrest⟩ := List.exists_cons_of_ne_nil (List.ne_nil_of_mem h.endMark_mem)
  have hmem := h.endMark_mem
  rw [lookahead, hrest, List.headD_cons] at hne
  rw [hrest, List.mem_cons] at hmem
  refine ⟨?_, ?_⟩
  · rw [Cursor.next, ← h.drop_eq, List.tail_drop]
  · rw [Cursor.next, hrest]
    exact hmem.resolve_left hne.symm

theorem stream_next (h : c.StandsIn tokens) (hne : c.lookahead ≠ Token.endMark) :
    (c.stream tokens).next = c.next.stream tokens := by
  have hnext := h.next hne
  obtain ⟨t, rest, hrest⟩ := List.exists_cons_of_ne_nil (List.ne_nil_of_mem hnext.endMark_mem)
  have hget : tokens[c.position + 1]? = some t := by
    have hhead : (tokens.drop (c.position + 1)).head? = some t := by
      rw [show c.position + 1 = c.next.position from rfl, hnext.drop_eq, hrest]
      rfl
    rwa [List.head?_drop] at hhead
  have hseen : c.next.lookahead = t := by rw [lookahead, hrest]; rfl
  simp only [stream, TokenStream.next, hget, hseen]
  rfl

end StandsIn

end Cursor

namespace Descent

variable {σ τ α β : Type} {tokens : List Token} {scarce : Prop}

/-- What a run of routines may come to, given what the reader comes to. It may be given up where
room is scarce. -/
inductive Tracks (tokens : List Token) (scarce : Prop) :
    EStateM.Result Failure σ (α × Cursor) → EStateM.Result Stop (TokenStream × σ) α → Prop
  | ok {x d s} (h : d.StandsIn tokens) :
      Tracks tokens scarce (.ok (x, d) s) (.ok x (d.stream tokens, s))
  | failed {e s t} : Tracks tokens scarce (.error e s) (.error (.failed e) (t, s))
  | exhausted {r s} (h : scarce) : Tracks tokens scarce r (.error .exhausted s)

/-- The run follows the reader from the cursor on. -/
def Mirrors (tokens : List Token) (scarce : Prop) (c : Cursor) (m : Reading σ (α × Cursor))
    (r : Descent σ α) : Prop :=
  ∀ s, Tracks tokens scarce (m s) (r (c.stream tokens, s))

namespace Mirrors

variable {c : Cursor} {m m' : Reading σ (α × Cursor)} {r r' : Descent σ α}

theorem mono {p q : Prop} (hpq : p → q) (h : Mirrors tokens p c m r) : Mirrors tokens q c m r := by
  intro s
  have hs := h s
  generalize m s = result, r (c.stream tokens, s) = outcome at hs ⊢
  cases hs with
  | ok hstands => exact .ok hstands
  | failed => exact .failed
  | exhausted hp => exact .exhausted (hpq hp)

theorem exhaust (h : scarce) : Mirrors tokens scarce c m exhaust := fun _ => .exhausted h

theorem ofPure {x : α} (hc : c.StandsIn tokens) :
    Mirrors tokens scarce c (pure (x, c) : Reading σ (α × Cursor)) (pure x) :=
  fun _ => .ok hc

/-- What is made does not move the stream. -/
theorem making {m : Reading σ α} {f : α → Reading σ (β × Cursor)} {g : α → Descent σ β}
    (h : ∀ x, Mirrors tokens scarce c (f x) (g x)) :
    Mirrors tokens scarce c (m >>= f) (build m >>= g) := by
  intro s
  simp only [Bind.bind, EStateM.bind, build]
  cases m s with
  | ok x s' => exact h x s'
  | error e s' => exact .failed

theorem value (m : Reading σ α) (hc : c.StandsIn tokens) :
    Mirrors tokens scarce c (m >>= fun x => pure (x, c)) (build m) := by
  have hmaking : Mirrors tokens scarce c (m >>= fun x => pure (x, c)) (build m >>= pure) :=
    making fun _ => ofPure hc
  rwa [bind_pure] at hmaking

/-- What goes on after reading is compared wherever reading comes to. -/
theorem andThen {n : Nat} {m : Reading σ (Read n α)} {f : α → Cursor → Reading σ (β × Cursor)}
    {r : Descent σ α} {g : α → Descent σ β} (hm : Mirrors tokens scarce c m.bare r)
    (hf : ∀ x d, d.size < n → d.StandsIn tokens → Mirrors tokens scarce d (f x d) (g x)) :
    Mirrors tokens scarce c (m.andThen f) (r >>= g) := by
  intro s
  have hs := hm s
  simp only [Reading.bare, Reading.andThen, Bind.bind, EStateM.bind] at hs ⊢
  cases hmr : m s with
  | ok y s' =>
    rw [hmr] at hs
    generalize hr : r (c.stream tokens, s) = result at hs ⊢
    cases hs with
    | ok hd => exact hf y.value y.next y.size_lt hd s'
    | exhausted h => exact .exhausted h
  | error e s' =>
    rw [hmr] at hs
    generalize hr : r (c.stream tokens, s) = result at hs ⊢
    cases hs with
    | failed => exact .failed
    | exhausted h => exact .exhausted h

theorem seen {g : Token → Descent σ α} (h : Mirrors tokens scarce c m (g c.lookahead)) :
    Mirrors tokens scarce c m (seen >>= g) := h

theorem step {g : Unit → Descent σ α} (hc : c.StandsIn tokens)
    (hne : c.lookahead ≠ Token.endMark)
    (h : c.next.StandsIn tokens → Mirrors tokens scarce c.next m (g ())) :
    Mirrors tokens scarce c m (step >>= g) := by
  intro s
  have hs := h (hc.next hne) s
  rw [← hc.stream_next hne] at hs
  exact hs

theorem reject (reason : Reason) (detail : Option String) :
    Mirrors tokens scarce c (throw (c.reject reason detail) : Reading σ (α × Cursor))
      (reject reason detail) :=
  fun _ => .failed

theorem ite {p : Prop} [Decidable p] (h : p → Mirrors tokens scarce c m r)
    (h' : ¬ p → Mirrors tokens scarce c m' r') :
    Mirrors tokens scarce c (if p then m else m') (if p then r else r') := by
  split
  · next hp => exact h hp
  · next hp => exact h' hp

/-- What follows a symbol that is demanded. -/
theorem expect {symbol : Token} (reason : Reason) {n : Reading σ (α × Cursor)}
    {g : Unit → Descent σ α} (hc : c.StandsIn tokens) (hne : symbol ≠ Token.endMark)
    (h : c.next.StandsIn tokens → Mirrors tokens scarce c.next n (g ())) :
    Mirrors tokens scarce c (c.expect symbol reason >>= fun _ => n)
      (expect symbol reason >>= g) := by
  intro s
  by_cases hsymbol : c.lookahead = symbol
  · have hstep := step hc (hsymbol ▸ hne) h s
    have hleft : (c.expect symbol reason : Reading σ Unit) = pure () := if_pos hsymbol
    have hright : (Descent.expect symbol reason : Descent σ Unit) (c.stream tokens, s) =
        Descent.step (c.stream tokens, s) := by
      change (if c.lookahead = symbol then Descent.step else Descent.reject reason none :
        Descent σ Unit) _ = _
      rw [if_pos hsymbol]
    rw [hleft, pure_bind]
    change Tracks tokens scarce _ (EStateM.bind _ _ _)
    rw [EStateM.bind, hright]
    exact hstep
  · have hleft : (c.expect symbol reason : Reading σ Unit) = throw (c.reject reason none) :=
      if_neg hsymbol
    have hright : (Descent.expect symbol reason : Descent σ Unit) (c.stream tokens, s) =
        Descent.reject reason none (c.stream tokens, s) := by
      change (if c.lookahead = symbol then Descent.step else Descent.reject reason none :
        Descent σ Unit) _ = _
      rw [if_neg hsymbol]
    rw [hleft]
    change Tracks tokens scarce _ (EStateM.bind _ _ _)
    rw [EStateM.bind, hright]
    exact .failed

/-- A closing symbol and the value that is made behind it. -/
theorem closed {symbol : Token} (reason : Reason) (m : Reading σ τ) (hc : c.StandsIn tokens)
    (hne : symbol ≠ Token.endMark) :
    Mirrors tokens scarce c (Grammar.closed symbol reason m c) (closed symbol reason m) :=
  expect reason hc hne fun hnext => value m hnext

theorem closedIndex (b : Builder σ τ) (op : String) (args : List τ) (hc : c.StandsIn tokens) :
    Mirrors tokens scarce c (Grammar.closedIndex b op args c) (closedIndex b op args) :=
  making fun _ => expect _ hc (by decide) fun hnext => ofPure hnext

/-- The operator of a joint is stepped over. -/
theorem past {k : Series} {j : Joint} {g : Unit → Descent σ α} (hc : c.StandsIn tokens)
    (hjoint : k.joint? c.lookahead = some j)
    (h : (c.past j).StandsIn tokens → Mirrors tokens scarce (c.past j) m (g ())) :
    Mirrors tokens scarce c m (past j >>= g) := by
  have hne : c.lookahead ≠ Token.endMark := by
    intro hmark
    rw [hmark, k.joint?_endMark] at hjoint
    cases hjoint
  cases j with
  | written op => exact step hc hne h
  | implied => exact h hc

section Series

variable {ctx : Context} {b : Builder σ τ} {k : Series} {operand first : Descent σ τ}

/-- Further operands, with as many of them allowed as there are tokens left. -/
theorem further {n bound : Nat} (hc : c.StandsIn tokens) (hn : c.size < n) (hbound : c.size ≤ bound)
    (hoperand : ∀ d, d.size < n → d.StandsIn tokens →
      Mirrors tokens scarce d (Grammar.phrase ctx b k.operand d).bare operand) :
    Mirrors tokens scarce c (Grammar.more ctx b k c).bare (further k operand bound) := by
  induction bound generalizing c with
  | zero => exact absurd hc.size_pos (Nat.not_lt_of_le hbound)
  | succ bound ih =>
    rw [Grammar.bare_more, Descent.further]
    refine seen ?_
    cases hjoint : k.joint? c.lookahead with
    | none => exact ofPure hc
    | some j =>
      refine past hc hjoint fun hpast => ?_
      have hle := c.size_past_le j
      refine andThen (hoperand _ (Nat.lt_of_le_of_lt hle hn) hpast) fun x d hd hstands => ?_
      have hlt : d.size < c.size := Nat.lt_of_lt_of_le hd hle
      refine andThen (ih hstands (Nat.lt_trans hlt hn) ?_) fun later e _ he => ofPure he
      exact Nat.le_of_lt_succ (Nat.lt_of_lt_of_le hlt hbound)

theorem series (hfirst : Mirrors tokens scarce c (Grammar.phrase ctx b k.operand c).bare first)
    (hoperand : ∀ d, d.size < c.size → d.StandsIn tokens →
      Mirrors tokens scarce d (Grammar.phrase ctx b k.operand d).bare operand) :
    Mirrors tokens scarce c (Grammar.series ctx b k c).bare (series k first operand) := by
  rw [Grammar.bare_series]
  refine andThen hfirst fun x d hd hstands => ?_
  have hfurther := further hstands hd hstands.size_le hoperand
  exact andThen (r := fun s => Descent.further k operand s.1.tokens.length s) hfurther
    fun later e _ he => ofPure he

end Series

end Mirrors

theorem listed_bind (first operand : Descent σ τ) (g : List τ → Descent σ α) :
    listed first operand >>= g =
      series .terms first operand >>= fun xs => g (xs.1 :: xs.2.map (·.2)) := by
  rw [listed, bind_assoc]
  rfl

end Descent

theorem Context.WellNamed.ne_endMark_of_opening {ctx : Context} {t : Token} {o : Context.Opening}
    (hctx : ctx.WellNamed) (ho : ctx.opening t = o) (hne : o ≠ .none) : t ≠ Token.endMark := by
  rintro rfl
  rw [hctx.opening_of_symbolic (by decide)] at ho
  exact hne ho.symm

namespace Routine

open Descent

variable {σ τ : Type} (ctx : Context) (b : Builder σ τ)

/-- What a routine reads. -/
def read : Routine τ → Cursor → Reading σ (τ × Cursor)
  | term, c => (Grammar.phrase ctx b .term c).bare
  | tier t, c | pair t, c => (Grammar.phrase ctx b (.tier t) c).bare
  | sum, c => (Grammar.phrase ctx b .sum c).bare
  | product, c => (Grammar.phrase ctx b .product c).bare
  | power, c => (Grammar.phrase ctx b .power c).bare
  | unary, c => (Grammar.phrase ctx b .unary c).bare
  | primary, c => (Grammar.phrase ctx b .primary c).bare
  | call, c => Grammar.opened ctx b .call c
  | index x, c => Grammar.indexed ctx b x c
  | vector, c => (Grammar.phrase ctx b .row c).bare
  | elements, c => (Grammar.phrase ctx b .elements c).bare
  | brackets, c => Grammar.opened ctx b .bracket c
  | braces, c => Grammar.opened ctx b .brace c

/-- Where a routine is called. -/
def Due : Routine τ → Cursor → Prop
  | call, c => ctx.opening c.lookahead = .call
  | index _, c | vector, c => c.lookahead = "["
  | brackets, c => ctx.opening c.lookahead = .bracket
  | braces, c => ctx.opening c.lookahead = .brace
  | _, _ => True

/-- Routines of lower rank may be called at the same place. -/
def rank : Routine τ → Nat
  | call | index _ | vector | brackets | braces => 0
  | primary => 1
  | unary => 2
  | power => 3
  | product => 4
  | sum => 5
  | pair .relation => 6
  | tier .relation => 7
  | pair .equality => 8
  | tier .equality => 9
  | pair .conjunction => 10
  | tier .conjunction => 11
  | pair .disjunction => 12
  | tier .disjunction => 13
  | term => 14
  | elements => 15

/-- The tokens that are left, and the rank of what is read in them. -/
def weight (r : Routine τ) (c : Cursor) : Nat := 16 * c.size + r.rank

variable {ctx b} {r u : Routine τ} {c d : Cursor} {tokens : List Token} {scarce : Prop}
  {go : Routine τ → Descent σ τ}

theorem rank_le (r : Routine τ) : r.rank ≤ 15 := by
  unfold rank
  split <;> omega

theorem weight_lt_of_size_lt (h : d.size < c.size) : u.weight d < r.weight c := by
  have hrank := u.rank_le
  simp only [weight]
  omega

theorem weight_lt_of_rank_lt (h : u.rank < r.rank) : u.weight c < r.weight c :=
  Nat.add_lt_add_left h _

theorem rank_pair_lt (t : Tier) : (pair t : Routine τ).rank < (tier t : Routine τ).rank := by
  cases t <;> exact Nat.lt_succ_self _

theorem rank_routine_lt (t : Tier) : (t.routine : Routine τ).rank < (pair t : Routine τ).rank := by
  cases t <;> exact Nat.lt_succ_self _

theorem read_routine (t : Tier) (c : Cursor) :
    (t.routine : Routine τ).read ctx b c = (Grammar.phrase ctx b t.operand c).bare := by
  cases t <;> rfl

theorem due_routine (t : Tier) (c : Cursor) : (t.routine : Routine τ).Due ctx c := by
  cases t <;> trivial

variable (ctx b) in
/-- Routines below the weight read what they should. -/
def Serves (tokens : List Token) (scarce : Prop) (go : Routine τ → Descent σ τ) (w : Nat) : Prop :=
  ∀ (r : Routine τ) (c : Cursor), r.Due ctx c → c.StandsIn tokens → r.weight c < w →
    Mirrors tokens scarce c (r.read ctx b c) (go r)

namespace Serves

variable {w : Nat} (hgo : Serves ctx b tokens scarce go w)

include hgo

theorem operand {t : Tier} (hc : c.StandsIn tokens) (h : (t.routine : Routine τ).weight c < w) :
    Mirrors tokens scarce c (Grammar.phrase ctx b t.operand c).bare (go t.routine) := by
  rw [← read_routine]
  exact hgo _ c (due_routine t c) hc h

theorem term (hc : c.StandsIn tokens) (h : (Routine.term : Routine τ).weight c < w) :
    Mirrors tokens scarce c (Grammar.phrase ctx b .term c).bare (go .term) :=
  hgo .term c trivial hc h

theorem unary (hc : c.StandsIn tokens) (h : (Routine.unary : Routine τ).weight c < w) :
    Mirrors tokens scarce c (Grammar.phrase ctx b .unary c).bare (go .unary) :=
  hgo .unary c trivial hc h

theorem elements (hc : c.StandsIn tokens) (h : (Routine.elements : Routine τ).weight c < w) :
    Mirrors tokens scarce c (Grammar.phrase ctx b .elements c).bare (go .elements) :=
  hgo .elements c trivial hc h

/-- A series of terms, behind the token at the cursor of what is served. -/
theorem terms (hc : c.StandsIn tokens) (h : (Routine.term : Routine τ).weight c < w) :
    Mirrors tokens scarce c (Grammar.series ctx b .terms c).bare
      (series .terms (go .term) (go .term)) :=
  .series (hgo.term hc h) fun _ hd hstands =>
    hgo.term hstands ((weight_lt_of_size_lt hd).trans h)

end Serves

/-! One step of each routine. Where the routines that it calls read what they should, so does the
routine itself. -/

section Steps

variable (hc : c.StandsIn tokens)

include hc

theorem body_pair {t : Tier}
    (hgo : Serves ctx b tokens scarce go ((pair t : Routine τ).weight c)) :
    Mirrors tokens scarce c ((pair t : Routine τ).read ctx b c) (body ctx b go (pair t)) := by
  rw [read, Grammar.bare_tier, body]
  refine .andThen (hgo.operand hc (weight_lt_of_rank_lt (rank_routine_lt t)))
    fun left d hd hstands => .seen (.ite (fun hop => ?_) fun _ => .ofPure hstands)
  refine .step hstands (Tier.ne_endMark hop) fun hnext => ?_
  have hsize : d.next.size < c.size := Nat.lt_of_le_of_lt d.size_next_le hd
  exact .andThen (hgo.operand hnext (weight_lt_of_size_lt hsize)) fun right e _ he =>
    .value _ he

theorem body_sum (hgo : Serves ctx b tokens scarce go ((sum : Routine τ).weight c)) :
    Mirrors tokens scarce c ((sum : Routine τ).read ctx b c) (body ctx b go sum) := by
  rw [read, Grammar.bare_sum, body]
  have hseries : Mirrors tokens scarce c (Grammar.series ctx b .summands c).bare
      (series .summands (go product) (go product)) :=
    .series (hgo product c trivial hc (weight_lt_of_rank_lt (Nat.lt_succ_self _)))
      fun d hd hstands => hgo product d trivial hstands (weight_lt_of_size_lt hd)
  exact .andThen hseries fun xs d _ hstands => .value _ hstands

theorem body_product (hgo : Serves ctx b tokens scarce go ((product : Routine τ).weight c)) :
    Mirrors tokens scarce c ((product : Routine τ).read ctx b c) (body ctx b go product) := by
  rw [read, Grammar.bare_product, body]
  have hseries : Mirrors tokens scarce c (Grammar.series ctx b .factors c).bare
      (series .factors (go power) (go power)) :=
    .series (hgo power c trivial hc (weight_lt_of_rank_lt (Nat.lt_succ_self _)))
      fun d hd hstands => hgo power d trivial hstands (weight_lt_of_size_lt hd)
  exact .andThen hseries fun xs d _ hstands => .value _ hstands

theorem body_power (hgo : Serves ctx b tokens scarce go ((power : Routine τ).weight c)) :
    Mirrors tokens scarce c ((power : Routine τ).read ctx b c) (body ctx b go power) := by
  rw [read, Grammar.bare_power, body]
  refine .andThen (hgo.unary hc (weight_lt_of_rank_lt (Nat.lt_succ_self _)))
    fun base d hd hstands => .seen (.ite (fun hcaret => ?_) fun _ => .ofPure hstands)
  refine .step hstands (by rw [hcaret]; decide) fun hnext => ?_
  have hsize : d.next.size < c.size := Nat.lt_of_le_of_lt d.size_next_le hd
  exact .andThen (hgo.unary hnext (weight_lt_of_size_lt hsize)) fun exponent e _ he =>
    .value _ he

theorem body_unary (hgo : Serves ctx b tokens scarce go ((unary : Routine τ).weight c)) :
    Mirrors tokens scarce c ((unary : Routine τ).read ctx b c) (body ctx b go unary) := by
  rw [read, Grammar.bare_unary, body]
  refine .seen (.ite (fun hminus => ?_) fun _ => .ite (fun hnot => ?_) fun _ => ?_)
  · refine .step hc (by rw [hminus]; decide) fun hnext => ?_
    have hsize := c.size_next_lt_of_eq "-" hminus (by decide)
    exact .andThen (hgo product _ trivial hnext (weight_lt_of_size_lt hsize)) fun x d _ hstands =>
      .value _ hstands
  · refine .step hc (by rw [hnot]; decide) fun hnext => ?_
    have hsize := c.size_next_lt_of_eq "!" hnot (by decide)
    exact .andThen (hgo primary _ trivial hnext (weight_lt_of_size_lt hsize)) fun x d _ hstands =>
      .value _ hstands
  · refine .andThen (hgo primary c trivial hc (weight_lt_of_rank_lt (Nat.lt_succ_self _)))
      fun x d hd hstands => .seen ?_
    split
    · next hopen => exact hgo (index x) d hopen hstands (weight_lt_of_size_lt hd)
    · next hopen =>
      rw [Grammar.indexed, if_neg hopen]
      exact .ofPure hstands

theorem body_elements (hgo : Serves ctx b tokens scarce go ((elements : Routine τ).weight c)) :
    Mirrors tokens scarce c ((elements : Routine τ).read ctx b c) (body ctx b go elements) := by
  rw [read, Grammar.bare_elements, body]
  refine .seen (.ite (fun hclose => ?_) fun _ => ?_)
  · have hclosed : Mirrors tokens scarce c
        (Grammar.closed "]" .expectedBracket (b.makeNode "vec" [] []) c)
        (closed "]" .expectedBracket (b.makeNode "vec" [] [])) :=
      .closed _ _ hc (by decide)
    rwa [Grammar.closed, Cursor.expect, if_pos hclose, pure_bind] at hclosed
  · rw [listed_bind]
    exact .andThen (hgo.terms hc (weight_lt_of_rank_lt (Nat.lt_succ_self _)))
      fun xs d _ hstands => .closed _ _ hstands (by decide)

theorem body_vector (hdue : c.lookahead = "[")
    (hgo : Serves ctx b tokens scarce go ((vector : Routine τ).weight c)) :
    Mirrors tokens scarce c ((vector : Routine τ).read ctx b c) (body ctx b go vector) := by
  rw [read, Grammar.bare_row, if_pos hdue, body]
  refine .step hc (by rw [hdue]; decide) fun hnext => hgo.elements hnext ?_
  exact weight_lt_of_size_lt (c.size_next_lt_of_eq "[" hdue (by decide))

theorem body_index {x : τ} (hdue : c.lookahead = "[")
    (hgo : Serves ctx b tokens scarce go ((index x).weight c)) :
    Mirrors tokens scarce c ((index x).read ctx b c) (body ctx b go (index x)) := by
  have hsize := c.size_next_lt_of_eq "[" hdue (by decide)
  rw [read, Grammar.indexed, if_pos hdue, body]
  refine .step hc (by rw [hdue]; decide) fun hnext => ?_
  refine .andThen (hgo.term hnext (weight_lt_of_size_lt hsize)) fun i d hd hstands => .seen ?_
  refine .ite (fun hcomma => ?_) fun _ => .closedIndex b _ _ hstands
  refine .step hstands (by rw [hcomma]; decide) fun hnext' => ?_
  have hsize' : d.next.size < c.size :=
    Nat.lt_of_le_of_lt d.size_next_le (Nat.lt_trans hd hsize)
  exact .andThen (hgo.term hnext' (weight_lt_of_size_lt hsize')) fun j e _ he =>
    .closedIndex b _ _ he

theorem body_brackets (hctx : ctx.WellNamed) (hdue : ctx.opening c.lookahead = .bracket)
    (hgo : Serves ctx b tokens scarce go ((brackets : Routine τ).weight c)) :
    Mirrors tokens scarce c ((brackets : Routine τ).read ctx b c) (body ctx b go brackets) := by
  have hne := hctx.ne_endMark_of_opening hdue (by decide)
  have hsize := c.size_next_lt (c.rest_ne_nil hne)
  rw [read, Grammar.opened, Grammar.bracketed, body]
  refine .step hc hne fun hnext => .seen (.ite (fun hrow => ?_) fun _ => ?_)
  · have hseries : Mirrors tokens scarce c.next (Grammar.series ctx b .rows c.next).bare
        (series .rows (go vector) do
          if (← seen) = "[" then go vector else reject .expectedOpenBracket none) := by
      refine .series (hgo vector _ hrow hnext (weight_lt_of_size_lt hsize)) fun d hd hstands =>
        .seen ?_
      split
      · next hopen =>
        exact hgo vector d hopen hstands (weight_lt_of_size_lt (Nat.lt_trans hd hsize))
      · next hopen =>
        rw [show Series.rows.operand = .row from rfl, Grammar.bare_row, if_neg hopen]
        exact .reject _ _
    exact .andThen hseries fun xs d _ hstands => .closed _ _ hstands (by decide)
  · exact hgo.elements hnext (weight_lt_of_size_lt hsize)

theorem body_braces (hctx : ctx.WellNamed) (hdue : ctx.opening c.lookahead = .brace)
    (hgo : Serves ctx b tokens scarce go ((braces : Routine τ).weight c)) :
    Mirrors tokens scarce c ((braces : Routine τ).read ctx b c) (body ctx b go braces) := by
  have hne := hctx.ne_endMark_of_opening hdue (by decide)
  have hsize := c.size_next_lt (c.rest_ne_nil hne)
  rw [read, Grammar.opened, body]
  refine .step hc hne fun hnext => ?_
  rw [listed_bind]
  exact .andThen (hgo.terms hnext (weight_lt_of_size_lt hsize)) fun xs d _ hstands =>
    .closed _ _ hstands (by decide)

theorem dimensions_mirrors {w : Nat} (hgo : Serves ctx b tokens scarce go w)
    (hw : ∀ d : Cursor, d.size < c.size → (Routine.unary : Routine τ).weight d < w) :
    Mirrors tokens scarce c (Grammar.dimensions ctx b c).bare (dimensions (go unary)) := by
  rw [Grammar.bare_dimensions, dimensions]
  refine .seen (.ite (fun hangle => ?_) fun _ => .ofPure hc)
  have hsize := c.size_next_lt_of_eq "<" hangle (by decide)
  refine .step hc (by rw [hangle]; decide) fun hnext => ?_
  have hseries : Mirrors tokens scarce c.next (Grammar.series ctx b .dimensions c.next).bare
      (series .dimensions (go unary) (go unary)) :=
    .series (hgo.unary hnext (hw _ hsize)) fun d hd hstands =>
      hgo.unary hstands (hw d (Nat.lt_trans hd hsize))
  exact .andThen hseries fun xs d _ hstands =>
    .expect _ hstands (by decide) fun hnext => .ofPure hnext

theorem counted_mirrors (name : Token) (dims args : List τ) :
    Mirrors tokens scarce c (Grammar.counted ctx b name dims args c)
      (counted ctx b name dims args) :=
  .expect _ hc (by decide) fun hnext => .ite (fun _ => .value _ hnext) fun _ => .reject _ _

theorem body_call (hctx : ctx.WellNamed) (hdue : ctx.opening c.lookahead = .call)
    (hgo : Serves ctx b tokens scarce go ((call : Routine τ).weight c)) :
    Mirrors tokens scarce c ((call : Routine τ).read ctx b c) (body ctx b go call) := by
  have hne := hctx.ne_endMark_of_opening hdue (by decide)
  have hsize := c.size_next_lt (c.rest_ne_nil hne)
  rw [read, Grammar.opened, body]
  refine .seen (.step hc hne fun hnext => ?_)
  have hdims := dimensions_mirrors hnext hgo fun d hd =>
    weight_lt_of_size_lt (Nat.lt_trans hd hsize)
  refine .andThen hdims fun dims d hd hstands => .seen ?_
  have hle : d.size < c.size := Nat.lt_of_le_of_lt (Nat.le_of_lt_succ hd) hsize
  refine .ite (fun hparen => ?_) fun _ => .ite (fun _ => ?_) fun _ => .reject _ _
  · refine .step hstands (by rw [hparen]; decide) fun hinner => ?_
    refine .ite (fun _ => counted_mirrors hinner _ _ _) fun _ => ?_
    have hlt : d.next.size < c.size := Nat.lt_of_le_of_lt d.size_next_le hle
    have harguments := hgo.terms hinner (weight_lt_of_size_lt hlt)
    rw [listed_bind, Grammar.andThen_arguments]
    exact .andThen harguments fun xs e _ he => counted_mirrors he _ _ _
  · exact .andThen (hgo.unary hstands (weight_lt_of_size_lt hle)) fun x e _ he => .value _ he

end Steps

/-! What a numeral is converted to is told by its spelling. -/

section Numerals

variable {t : Token}

theorem integer_eq (h : t.isInteger = true) : (integer t : Descent σ Nat) =
    if Token.digitLimit < t.toList.length then throw (.failed (.excessDigits t.toList.length))
    else pure (Token.natValue t.toList) := by
  obtain ⟨hne, hdigit⟩ := Token.isDigit_of_integerChars h
  have hall : t.toList.filter Text.isDigit = t.toList :=
    List.filter_eq_self.2 fun c hc => Text.isDigit_of_isDigit (hdigit c hc)
  rw [integer, Text.int?_eq hne hdigit, hall]
  by_cases hlimit : Token.digitLimit < t.toList.length
  · simp only [if_pos hlimit]
  · simp only [if_neg hlimit, Int.toNat_natCast]

theorem decimal_eq (h : t.isReal = true) :
    (decimal t : Descent σ Binary64) = pure (Token.realValue t.toList) := by
  have hnumber := Token.number?_of_isReal h Token.digitLimit
  rw [Token.number?, if_neg (Bool.eq_false_iff.1 (Token.not_imaginary_of_isReal h).2)] at hnumber
  obtain ⟨x, hx, hvalue⟩ := Option.map_eq_some_iff.1 hnumber
  rw [decimal, hx, ← Number.real.inj hvalue]

/-- The magnitude of an imaginary numeral is converted, unless it is an integer with too many
digits. -/
theorem number_magnitude (h : t.isImaginary = true) : (number t.magnitude : Descent σ Number) =
    match t.excessDigits? with
    | some digits => throw (.failed (.excessDigits digits))
    | none => pure (Token.imaginaryValue t.toList.dropLast) := by
  rw [Token.excessDigits?_eq, number]
  obtain ⟨hint, hvalue⟩ | ⟨hreal, hvalue⟩ := Token.magnitude_of_isImaginary h
  · rw [if_pos hint, integer_eq hint, hvalue]
    by_cases hlimit : Token.digitLimit < t.magnitude.toList.length
    · rw [if_pos hlimit, if_pos ⟨hint, hlimit⟩]
      rfl
    · rw [if_neg hlimit, if_neg fun h => hlimit h.2, pure_bind]
  · have hint := Bool.eq_false_iff.1 (Token.not_imaginary_of_isReal hreal).2
    rw [if_neg hint, if_neg fun h => hint h.1, decimal_eq hreal, hvalue, pure_bind]

end Numerals

variable (b) in
/-- A primary phrase, by what the token in sight opens. -/
def entered (go : Routine τ → Descent σ τ) (t : Token) : Context.Opening → Descent σ τ
  | .leaf l => do
    step
    build (b.makeLeaf l)
  | .excess digits => do
    step
    throw (.failed (.excessDigits digits))
  | .call => go call
  | .paren => do
    step
    let x ← go term
    closed ")" .expectedParen (pure x)
  | .bar => do
    step
    let x ← go term
    closed "|" .expectedBar (b.makeNode "abs" [x] [])
  | .bracket => go brackets
  | .brace => go braces
  | .none => reject (if t = Token.endMark then .unexpectedEnd else .unexpectedToken) none

theorem body_primary_eq : body ctx b go primary =
    seen >>= fun t => entered b go t (ctx.opening t) := by
  rw [body]
  refine bind_congr fun t => ?_
  rw [Context.opening]
  simp only [apply_ite (entered b go t)]
  refine ite_congr rfl (fun _ => rfl) fun _ => ite_congr rfl (fun _ => rfl) fun _ =>
    ite_congr rfl (fun _ => rfl) fun _ => ite_congr rfl (fun himag => ?_) fun _ =>
    ite_congr rfl (fun hint => ?_) fun _ => ite_congr rfl (fun hreal => ?_) fun _ => rfl
  · rw [number_magnitude himag]
    cases t.excessDigits? with
    | none => simp only [pure_bind, entered]
    | some digits => rfl
  · have himag := Token.not_imaginary_of_isInteger hint
    have hmagnitude := Token.magnitude_of_not_isImaginary himag
    rw [integer_eq hint, Token.excessDigits?_eq, hmagnitude]
    by_cases hlimit : Token.digitLimit < t.toList.length
    · rw [if_pos hlimit, if_pos ⟨hint, hlimit⟩]
      rfl
    · rw [if_neg hlimit, if_neg fun h => hlimit h.2]
      simp only [pure_bind, entered]
  · rw [decimal_eq hreal]
    simp only [pure_bind, entered]

theorem body_primary (hctx : ctx.WellNamed) (hc : c.StandsIn tokens)
    (hgo : Serves ctx b tokens scarce go ((primary : Routine τ).weight c)) :
    Mirrors tokens scarce c ((primary : Routine τ).read ctx b c) (body ctx b go primary) := by
  have hrest : c.rest ≠ [] := List.ne_nil_of_mem hc.endMark_mem
  rw [read, Grammar.bare_primary, if_neg hrest, body_primary_eq]
  refine .seen ?_
  have hcalled (r : Routine τ) (hdue : r.Due ctx c) (hrank : r.rank < 1) :
      Mirrors tokens scarce c (r.read ctx b c) (go r) :=
    hgo r c hdue hc (weight_lt_of_rank_lt hrank)
  generalize ho : ctx.opening c.lookahead = o
  by_cases hnone : o = .none
  · subst hnone
    exact .reject _ _
  have hne := hctx.ne_endMark_of_opening ho hnone
  have hsize := c.size_next_lt hrest
  cases o with
  | none => exact absurd rfl hnone
  | leaf l => exact .step hc hne fun hnext => .value _ hnext
  | excess digits => exact .step hc hne fun _ _ => .failed
  | call => exact hcalled call ho Nat.zero_lt_one
  | bracket => exact hcalled brackets ho Nat.zero_lt_one
  | brace => exact hcalled braces ho Nat.zero_lt_one
  | paren =>
    rw [Grammar.opened, entered]
    refine .step hc hne fun hnext => ?_
    exact .andThen (hgo.term hnext (weight_lt_of_size_lt hsize)) fun x d _ hstands =>
      .closed _ _ hstands (by decide)
  | bar =>
    rw [Grammar.opened, entered]
    refine .step hc hne fun hnext => ?_
    exact .andThen (hgo.term hnext (weight_lt_of_size_lt hsize)) fun x d _ hstands =>
      .closed _ _ hstands (by decide)

/-- One step: a routine reads what it should where all that it calls does. -/
theorem body_mirrors (hctx : ctx.WellNamed) (hdue : r.Due ctx c) (hc : c.StandsIn tokens)
    (hgo : Serves ctx b tokens scarce go (r.weight c)) :
    Mirrors tokens scarce c (r.read ctx b c) (body ctx b go r) := by
  cases r with
  | term => exact hgo (tier .disjunction) c trivial hc (weight_lt_of_rank_lt (Nat.lt_succ_self _))
  | tier t => exact hgo (pair t) c trivial hc (weight_lt_of_rank_lt (rank_pair_lt t))
  | pair t => exact body_pair hc hgo
  | sum => exact body_sum hc hgo
  | product => exact body_product hc hgo
  | power => exact body_power hc hgo
  | unary => exact body_unary hc hgo
  | primary => exact body_primary hctx hc hgo
  | call => exact body_call hc hctx hdue hgo
  | index x => exact body_index hc hdue hgo
  | vector => exact body_vector hc hdue hgo
  | elements => exact body_elements hc hgo
  | brackets => exact body_brackets hc hctx hdue hgo
  | braces => exact body_braces hc hctx hdue hgo

/-- The run: a routine reads what it should, unless there is less room than its weight. An end
mark is always left, so sixteen calls of the weight are never needed. -/
theorem within_mirrors (hctx : ctx.WellNamed) {room : Nat} (hdue : r.Due ctx c)
    (hc : c.StandsIn tokens) :
    Mirrors tokens (room + 16 ≤ r.weight c) c (r.read ctx b c) (within ctx b room r) := by
  induction room generalizing r c with
  | zero =>
    have hsize := hc.size_pos
    exact .exhaust (by simp only [weight]; omega)
  | succ room ih =>
    refine body_mirrors hctx hdue hc fun u d hu hd hlt => (ih hu hd).mono fun hscarce => ?_
    omega

end Routine

namespace TokenStream

variable {tokens : List Token} {c : Cursor}

/-- The first step does not depend on what has been in sight before. -/
theorem next_start (tokens : List Token) (t u : Token) :
    (TokenStream.mk tokens 0 t).next = (TokenStream.mk tokens 0 u).next := by
  simp only [next]

theorem next_eq_stream (hend : Token.endMark ∈ tokens) (t : Token) :
    (TokenStream.mk tokens 0 t).next = (Cursor.start tokens).stream tokens := by
  obtain ⟨u, rest, rfl⟩ := List.exists_cons_of_ne_nil (List.ne_nil_of_mem hend)
  rfl

theorem atEnd_iff (hc : c.StandsIn tokens) :
    (c.stream tokens).AtEnd ↔ c.rest = [Token.endMark] := by
  obtain ⟨t, rest, hrest⟩ := List.exists_cons_of_ne_nil (List.ne_nil_of_mem hc.endMark_mem)
  have hlength : tokens.length - c.position = rest.length + 1 := by
    rw [← List.length_drop, hc.drop_eq, hrest, List.length_cons]
  have hlook : c.lookahead = t := by rw [Cursor.lookahead, hrest]; rfl
  rw [AtEnd, Cursor.stream, hlook, hrest, List.cons.injEq]
  refine and_congr_right fun _ => ?_
  rw [← List.length_eq_zero_iff]
  dsimp only
  omega

end TokenStream

namespace Grammar

open Descent

variable {σ τ : Type} {ctx : Context} (b : Builder σ τ) {tokens : List Token}

/-- A stream is read from its first token on, whatever has been in sight before. -/
theorem descend_start (room : Nat) (t u : Token) (s : σ) :
    descend ctx b room (⟨tokens, 0, t⟩, s) = descend ctx b room (⟨tokens, 0, u⟩, s) := by
  have hstep : (step : Descent σ Unit) (⟨tokens, 0, t⟩, s) = step (⟨tokens, 0, u⟩, s) := by
    rw [step, step, TokenStream.next_start tokens t u]
  simp only [descend, Bind.bind, EStateM.bind, hstep]

/-- A whole stream is read as the reader reads it, unless there is less room than sixteen calls
for every token. -/
theorem descend_eq (hctx : ctx.WellNamed) (hend : Token.endMark ∈ tokens) (room : Nat)
    (t : Token) (s : σ) :
    outcome (descend ctx b room (⟨tokens, 0, t⟩, s)) = Stop.ofResult (read ctx b tokens s) ∨
      room < 16 * tokens.length ∧
        ∃ s', outcome (descend ctx b room (⟨tokens, 0, t⟩, s)) = .error .exhausted s' := by
  have hstart := Cursor.StandsIn.start hend
  have hdue : (Routine.term : Routine τ).Due ctx (.start tokens) := trivial
  have hterm : Tracks tokens (room + 16 ≤ (Routine.term : Routine τ).weight (.start tokens))
      (Routine.read ctx b .term (.start tokens) s)
      (Routine.within ctx b room .term ((Cursor.start tokens).stream tokens, s)) :=
    Routine.within_mirrors hctx hdue hstart s
  rw [Routine.read, ← TokenStream.next_eq_stream hend t] at hterm
  have hread : read ctx b tokens = (phrase ctx b .term (.start tokens)).bare >>= fun y =>
      if y.2.rest = [Token.endMark] then pure y.1 else throw (y.2.reject .trailingTokens none) := by
    rw [Reading.bare, bind_assoc]
    rfl
  have hrun : descend ctx b room (⟨tokens, 0, t⟩, s) =
      EStateM.bind (Routine.within ctx b room .term) finish
        ((TokenStream.mk tokens 0 t).next, s) := rfl
  rw [hread, hrun]
  simp only [Bind.bind, EStateM.bind]
  generalize (phrase ctx b .term (.start tokens)).bare s = result at hterm ⊢
  generalize Routine.within ctx b room .term _ = outcome at hterm ⊢
  cases hterm with
  | exhausted hscarce =>
    refine .inr ⟨?_, _, rfl⟩
    simp only [Routine.weight, Routine.rank, Cursor.size, Cursor.start] at hscarce
    omega
  | failed => exact .inl rfl
  | @ok x d s' hd =>
    refine .inl ?_
    dsimp only [finish]
    by_cases hat : d.rest = [Token.endMark]
    · rw [if_pos hat, if_pos ((TokenStream.atEnd_iff hd).2 hat)]
      rfl
    · rw [if_neg hat, if_neg fun h => hat ((TokenStream.atEnd_iff hd).1 h)]
      rfl

end Grammar

end TermReader
