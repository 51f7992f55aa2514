import TermReader.Proofs.Execution
import TermReader.Proofs.Equations

/-!
Which phrases the reader begins. While it reads an item, the reader begins to read the parts
of the item one after the other, each behind those that have been read, so what it begins is
known from the rules. Every part has fewer tokens left than the whole or is of a lower rank,
and a numeral beyond the digit limit is met by the reader exactly where a primary phrase is
begun in front of it.
-/

namespace TermReader

/-- `Starts ctx i ts k us`: while the item `i` is read in `ts`, a series of the kind `k` is
read in `us`. -/
inductive Starts (ctx : Context) : Item → List Token → Series → List Token → Prop
  | sum {ts} : Starts ctx (.one .sum) ts .summands ts
  | product {ts} : Starts ctx (.one .product) ts .factors ts
  | elements {ts} (hclose : lead ts ≠ "]") : Starts ctx (.one .elements) ts .terms ts
  | matrix {t ts} (ht : ctx.opening t = .bracket) (hrow : lead ts = "[") :
      Starts ctx (.one .primary) (t :: ts) .rows ts
  | set {t ts} (ht : ctx.opening t = .brace) : Starts ctx (.one .primary) (t :: ts) .terms ts
  | arguments {t ts dims ts₁} (ht : ctx.opening t = .call)
      (hdims : Reads ctx .dimensions ts dims ("(" :: ts₁)) (hsome : 0 ∉ ctx.arities t) :
      Starts ctx (.one .primary) (t :: ts) .terms ts₁
  | dimensions {ts} : Starts ctx .dimensions ("<" :: ts) .dimensions ts

/-- `Begins ctx (i, ts) (j, us)`: while the item `i` is read in `ts`, the reader begins to read
the item `j` in `us`. What is read before is read successfully. -/
inductive Begins (ctx : Context) : Item × List Token → Item × List Token → Prop
  | left {t ts} : Begins ctx (.one (.tier t), ts) (.one t.operand, ts)
  | right {t op ts x ts₁} (hx : Reads ctx (.one t.operand) ts x (op :: ts₁))
      (hop : op ∈ t.operators) : Begins ctx (.one (.tier t), ts) (.one t.operand, ts₁)
  | base {ts} : Begins ctx (.one .power, ts) (.one .unary, ts)
  | exponent {ts x ts₁} (hx : Reads ctx (.one .unary) ts x ("^" :: ts₁)) :
      Begins ctx (.one .power, ts) (.one .unary, ts₁)
  | minus {ts} : Begins ctx (.one .unary, "-" :: ts) (.one .product, ts)
  | not {ts} : Begins ctx (.one .unary, "!" :: ts) (.one .primary, ts)
  | plain {ts} (hminus : lead ts ≠ "-") (hnot : lead ts ≠ "!") :
      Begins ctx (.one .unary, ts) (.one .primary, ts)
  | index1 {ts x ts₁} (hminus : lead ts ≠ "-") (hnot : lead ts ≠ "!")
      (hx : Reads ctx (.one .primary) ts x ("[" :: ts₁)) :
      Begins ctx (.one .unary, ts) (.one .term, ts₁)
  | index2 {ts x ts₁ i ts₂} (hminus : lead ts ≠ "-") (hnot : lead ts ≠ "!")
      (hx : Reads ctx (.one .primary) ts x ("[" :: ts₁))
      (hi : Reads ctx (.one .term) ts₁ i ("," :: ts₂)) :
      Begins ctx (.one .unary, ts) (.one .term, ts₂)
  | paren {t ts} (ht : ctx.opening t = .paren) :
      Begins ctx (.one .primary, t :: ts) (.one .term, ts)
  | bar {t ts} (ht : ctx.opening t = .bar) : Begins ctx (.one .primary, t :: ts) (.one .term, ts)
  | vector {t ts} (ht : ctx.opening t = .bracket) (hrow : lead ts ≠ "[") :
      Begins ctx (.one .primary, t :: ts) (.one .elements, ts)
  | dimensions {t ts} (ht : ctx.opening t = .call) :
      Begins ctx (.one .primary, t :: ts) (.dimensions, ts)
  | apply {t ts} (ht : ctx.opening t = .call) (hangle : lead ts ≠ "<") (hparen : lead ts ≠ "(")
      (hone : 1 ∈ ctx.arities t) : Begins ctx (.one .primary, t :: ts) (.one .unary, ts)
  | row {ts} : Begins ctx (.one .row, "[" :: ts) (.one .elements, ts)
  | first {i ts k us} (h : Starts ctx i ts k us) : Begins ctx (i, ts) (.one k.operand, us)
  | later {i ts k us x us₁} (h : Starts ctx i ts k us) (hx : Reads ctx (.one k.operand) us x us₁) :
      Begins ctx (i, ts) (.more k, us₁)
  | next {k j ts} (hjoint : k.joint? (lead ts) = some j) :
      Begins ctx (.more k, ts) (.one k.operand, j.past ts)
  | rest {k j ts x ts₁} (hjoint : k.joint? (lead ts) = some j)
      (hx : Reads ctx (.one k.operand) (j.past ts) x ts₁) : Begins ctx (.more k, ts) (.more k, ts₁)

/-- The tokens that are left, and the rank of what is read in them. -/
def Item.weight (x : Item × List Token) : Nat := 16 * x.2.length + x.1.rank

theorem Phrase.rank_le (p : Phrase) : p.rank ≤ 14 := by
  cases p with
  | tier t => cases t <;> decide
  | _ => decide

theorem Item.rank_le (i : Item) : i.rank ≤ 15 := by
  cases i with
  | one p => exact Nat.le_succ_of_le p.rank_le
  | _ => exact Nat.le_refl _

namespace Item

variable {i j : Item} {ts us : List Token}

/-- Fewer tokens weigh less, whatever is read in them. -/
theorem weight_lt_of_length_lt (h : us.length < ts.length) : weight (j, us) < weight (i, ts) := by
  have hrank := j.rank_le
  simp only [weight]
  omega

theorem weight_lt_of_rank_lt (h : j.rank < i.rank) : weight (j, ts) < weight (i, ts) :=
  Nat.add_lt_add_left h _

end Item

/-- What a series reads has at most the tokens of the item, and its operands are of a lower
rank if it has all of them. -/
theorem Starts.weight_lt {ctx : Context} {i : Item} {ts us : List Token} {k : Series}
    (h : Starts ctx i ts k us) :
    us.length ≤ ts.length ∧ Item.weight (.one k.operand, us) < Item.weight (i, ts) := by
  have htail {t : Token} {vs : List Token} (hlt : us.length < (t :: vs).length) :
      us.length ≤ (t :: vs).length ∧
        Item.weight (.one k.operand, us) < Item.weight (i, t :: vs) :=
    ⟨Nat.le_of_lt hlt, Item.weight_lt_of_length_lt hlt⟩
  cases h with
  | sum => exact ⟨Nat.le_refl _, Item.weight_lt_of_rank_lt (by decide)⟩
  | product => exact ⟨Nat.le_refl _, Item.weight_lt_of_rank_lt (by decide)⟩
  | elements => exact ⟨Nat.le_refl _, Item.weight_lt_of_rank_lt (by decide)⟩
  | arguments _ hdims _ => exact htail (Nat.lt_succ_of_le (Nat.le_of_succ_le hdims.shortens))
  | matrix => exact htail (Nat.lt_succ_self _)
  | set => exact htail (Nat.lt_succ_self _)
  | dimensions => exact htail (Nat.lt_succ_self _)

/-- What is begun has fewer tokens left, or as many and a lower rank. -/
theorem Begins.weight_lt {ctx : Context} {x y : Item × List Token} (h : Begins ctx x y) :
    Item.weight y < Item.weight x := by
  cases h with
  | left => exact Item.weight_lt_of_rank_lt (Tier.rank_operand_lt _)
  | base => exact Item.weight_lt_of_rank_lt (by decide)
  | plain => exact Item.weight_lt_of_rank_lt (by decide)
  | right hx _ => exact Item.weight_lt_of_length_lt (Nat.lt_of_succ_lt hx.shortens)
  | exponent hx => exact Item.weight_lt_of_length_lt (Nat.lt_of_succ_lt hx.shortens)
  | index1 _ _ hx => exact Item.weight_lt_of_length_lt (Nat.lt_of_succ_lt hx.shortens)
  | index2 _ _ hx hi =>
    have hfirst := Nat.lt_of_succ_lt hi.shortens
    exact Item.weight_lt_of_length_lt (Nat.lt_trans hfirst (Nat.lt_of_succ_lt hx.shortens))
  | first h => exact h.weight_lt.2
  | later h hx => exact Item.weight_lt_of_length_lt (Nat.lt_of_lt_of_le hx.shortens h.weight_lt.1)
  | @next k j ts _ =>
    have hpast := j.length_past_le ts
    have hrank := k.rank_operand_lt
    have hle := k.rank_le
    simp only [Item.weight, Item.rank]
    omega
  | rest _ hx =>
    exact Item.weight_lt_of_length_lt
      (Nat.lt_of_lt_of_le hx.shortens (Joint.length_past_le _ _))
  | _ => exact Item.weight_lt_of_length_lt (Nat.lt_succ_self _)

/-- The computation fails at a numeral with the given number of digits, which are too many. -/
def Exceeds {α : Type} (d : Nat) (m : Reading Unit α) : Prop :=
  m () = .error (.excessDigits d) ()

namespace Exceeds

variable {α β : Type} {d : Nat}

theorem bind_iff {m : Reading Unit α} {f : α → Reading Unit β} :
    Exceeds d (m >>= f) ↔ Exceeds d m ∨ ∃ x, Yields m x ∧ Exceeds d (f x) := by
  simp only [Exceeds, Yields, Bind.bind, EStateM.bind]
  cases h : m () with
  | ok x s => simp
  | error e s => simp

@[simp] theorem pure_iff {x : α} : Exceeds d (Pure.pure x) ↔ False := by
  simp [Exceeds, Pure.pure, EStateM.pure]

theorem andThen_iff {n : Nat} {m : Reading Unit (Read n α)} {f : α → Cursor → Reading Unit β} :
    Exceeds d (m.andThen f) ↔
      Exceeds d m.bare ∨ ∃ x c, (∃ h, Yields m ⟨x, c, h⟩) ∧ Exceeds d (f x c) := by
  have hbare : Exceeds d m.bare ↔ Exceeds d m := by
    simp only [Reading.bare, bind_iff, pure_iff, and_false, exists_false, or_false]
  rw [hbare, Reading.andThen, bind_iff]
  refine or_congr_right ⟨?_, ?_⟩
  · rintro ⟨⟨x, c, h⟩, hx, hf⟩
    exact ⟨x, c, ⟨h, hx⟩, hf⟩
  · rintro ⟨x, c, ⟨h, hx⟩, hf⟩
    exact ⟨⟨x, c, h⟩, hx, hf⟩

theorem ite_iff {p : Prop} [Decidable p] {m m' : Reading Unit α} :
    Exceeds d (if p then m else m') ↔ p ∧ Exceeds d m ∨ ¬ p ∧ Exceeds d m' := by
  by_cases hp : p
  · simp [hp]
  · simp [hp]

theorem excess_iff {e : Nat} : Exceeds d (throw (.excessDigits e) : Reading Unit α) ↔ e = d := by
  simp [Exceeds, throw, throwThe, MonadExceptOf.throw, EStateM.throw]

@[simp] theorem reject_iff {c : Cursor} {reason : Reason} {detail : Option String} :
    Exceeds d (throw (c.reject reason detail) : Reading Unit α) ↔ False := by
  simp [Exceeds, throw, throwThe, MonadExceptOf.throw, EStateM.throw, Cursor.reject]

@[simp] theorem expect_iff {c : Cursor} {symbol : Token} {reason : Reason} :
    Exceeds d (c.expect symbol reason) ↔ False := by
  simp [Cursor.expect, ite_iff]

@[simp] theorem closed_iff {c : Cursor} {symbol : Token} {reason : Reason} {x : α} :
    Exceeds d (Grammar.closed symbol reason (Pure.pure x) c) ↔ False := by
  simp only [Grammar.closed, bind_iff, expect_iff, pure_iff, and_false, exists_false, or_false]

@[simp] theorem closedIndex_iff {c : Cursor} {op : String} {args : List Term} :
    Exceeds d (Grammar.closedIndex .terms op args c) ↔ False := by
  simp only [Grammar.closedIndex, Builder.terms_makeNode, bind_iff, expect_iff, pure_iff, and_false,
    exists_false, or_false]

@[simp] theorem counted_iff {ctx : Context} {name : Token} {dims args : List Term} {c : Cursor} :
    Exceeds d (Grammar.counted ctx .terms name dims args c) ↔ False := by
  simp [Grammar.counted, bind_iff, ite_iff]

end Exceeds

/-- Reading the item at the cursor fails at a numeral with too many digits. -/
def Item.Exceeds (ctx : Context) (d : Nat) : Item → Cursor → Prop
  | one p, c => TermReader.Exceeds d (Grammar.phrase ctx .terms p c).bare
  | more k, c => TermReader.Exceeds d (Grammar.more ctx .terms k c).bare
  | dimensions, c => TermReader.Exceeds d (Grammar.dimensions ctx .terms c).bare

theorem Item.Returns.reads {ctx : Context} {i : Item} {c c' : Cursor} {x : i.Value}
    (h : i.Returns ctx c x c') : Reads ctx i c.rest x c'.rest := by
  cases i with
  | one p =>
    obtain ⟨_, h⟩ := h
    exact (Grammar.inverts ctx).1 p c _ h
  | more k =>
    obtain ⟨_, h⟩ := h
    exact (Grammar.inverts ctx).2.2.2.2.1 k c _ h
  | dimensions =>
    obtain ⟨_, h⟩ := h
    exact (Grammar.inverts ctx).2.2.2.2.2 c _ h

namespace Item.Exceeds

variable {ctx : Context} {d : Nat} {c : Cursor}

theorem tier_iff {t : Tier} : (one (.tier t)).Exceeds ctx d c ↔ (one t.operand).Exceeds ctx d c ∨
    ∃ x c₁, (one t.operand).Returns ctx c x c₁ ∧ c₁.lookahead ∈ t.operators ∧
      (one t.operand).Exceeds ctx d c₁.next := by
  simp [Item.Exceeds, Item.Returns, Grammar.bare_tier, Exceeds.andThen_iff, Exceeds.ite_iff]

theorem series_iff {k : Series} : TermReader.Exceeds d (Grammar.series ctx .terms k c).bare ↔
    (one k.operand).Exceeds ctx d c ∨
      ∃ x c₁, (one k.operand).Returns ctx c x c₁ ∧ (more k).Exceeds ctx d c₁ := by
  simp [Item.Exceeds, Item.Returns, Grammar.bare_series, Exceeds.andThen_iff]

theorem sum_iff : (one .sum).Exceeds ctx d c ↔
    TermReader.Exceeds d (Grammar.series ctx .terms .summands c).bare := by
  simp [Item.Exceeds, Grammar.bare_sum, Exceeds.andThen_iff]

theorem product_iff : (one .product).Exceeds ctx d c ↔
    TermReader.Exceeds d (Grammar.series ctx .terms .factors c).bare := by
  simp [Item.Exceeds, Grammar.bare_product, Exceeds.andThen_iff]

theorem power_iff : (one .power).Exceeds ctx d c ↔ (one .unary).Exceeds ctx d c ∨
    ∃ x c₁, (one .unary).Returns ctx c x c₁ ∧ c₁.lookahead = "^" ∧
      (one .unary).Exceeds ctx d c₁.next := by
  simp [Item.Exceeds, Item.Returns, Grammar.bare_power, Exceeds.andThen_iff, Exceeds.ite_iff]

theorem indexed_iff {x : Term} : TermReader.Exceeds d (Grammar.indexed ctx .terms x c) ↔
    c.lookahead = "[" ∧ ((one .term).Exceeds ctx d c.next ∨
      ∃ i c₁, (one .term).Returns ctx c.next i c₁ ∧ c₁.lookahead = "," ∧
        (one .term).Exceeds ctx d c₁.next) := by
  simp [Item.Exceeds, Item.Returns, Grammar.indexed, Exceeds.andThen_iff, Exceeds.ite_iff]

theorem unary_iff : (one .unary).Exceeds ctx d c ↔
    if c.lookahead = "-" then (one .product).Exceeds ctx d c.next
    else if c.lookahead = "!" then (one .primary).Exceeds ctx d c.next
    else (one .primary).Exceeds ctx d c ∨ ∃ x c₁, (one .primary).Returns ctx c x c₁ ∧
      TermReader.Exceeds d (Grammar.indexed ctx .terms x c₁) := by
  simp only [Item.Exceeds, Grammar.bare_unary]
  split
  · simp [Exceeds.andThen_iff]
  split
  · simp [Exceeds.andThen_iff]
  · exact Exceeds.andThen_iff

theorem primary_iff : (one .primary).Exceeds ctx d c ↔
    c.rest ≠ [] ∧ TermReader.Exceeds d (Grammar.opened ctx .terms (ctx.opening c.lookahead) c) := by
  simp [Item.Exceeds, Grammar.bare_primary, Exceeds.ite_iff]

theorem opened_iff {o : Context.Opening} :
    TermReader.Exceeds d (Grammar.opened ctx .terms o c) ↔ match o with
      | .leaf _ | .none => False
      | .excess e => e = d
      | .call => dimensions.Exceeds ctx d c.next ∨
        ∃ dims c₁, dimensions.Returns ctx c.next dims c₁ ∧
          TermReader.Exceeds d (Grammar.applied ctx .terms c.lookahead dims c₁)
      | .paren | .bar => (one .term).Exceeds ctx d c.next
      | .bracket =>
        if c.next.lookahead = "[" then
          TermReader.Exceeds d (Grammar.series ctx .terms .rows c.next).bare
        else (one .elements).Exceeds ctx d c.next
      | .brace => TermReader.Exceeds d (Grammar.series ctx .terms .terms c.next).bare := by
  cases o with
  | leaf l => simp [Grammar.opened]
  | none => simp [Grammar.opened]
  | excess e => exact Exceeds.excess_iff
  | call => exact Exceeds.andThen_iff
  | paren => simp [Grammar.opened, Exceeds.andThen_iff, Item.Exceeds]
  | bar => simp [Grammar.opened, Exceeds.andThen_iff, Item.Exceeds]
  | bracket =>
    simp only [Grammar.opened, Grammar.bracketed]
    split
    · simp [Exceeds.andThen_iff]
    · rfl
  | brace => simp [Grammar.opened, Exceeds.andThen_iff]

theorem of_opened {t : Token} {ts : List Token} {n : Nat} {o : Context.Opening}
    (ht : ctx.opening t = o)
    (h : TermReader.Exceeds d (Grammar.opened ctx .terms o ⟨n, t :: ts⟩)) :
    (one .primary).Exceeds ctx d ⟨n, t :: ts⟩ :=
  primary_iff.2 ⟨List.cons_ne_nil t ts, ht ▸ h⟩

theorem applied_iff {name : Token} {dims : List Term} :
    TermReader.Exceeds d (Grammar.applied ctx .terms name dims c) ↔
      if c.lookahead = "(" then 0 ∉ ctx.arities name ∧
        TermReader.Exceeds d (Grammar.series ctx .terms .terms c.next).bare
      else 1 ∈ ctx.arities name ∧ dims = [] ∧ (one .unary).Exceeds ctx d c := by
  unfold Grammar.applied
  split
  · simp [Exceeds.ite_iff, Exceeds.andThen_iff, Grammar.bare_arguments]
  · simp [Item.Exceeds, Exceeds.ite_iff, Exceeds.andThen_iff, and_assoc]

theorem row_iff : (one .row).Exceeds ctx d c ↔
    c.lookahead = "[" ∧ (one .elements).Exceeds ctx d c.next := by
  simp [Item.Exceeds, Grammar.bare_row, Exceeds.ite_iff]

theorem elements_iff : (one .elements).Exceeds ctx d c ↔
    c.lookahead ≠ "]" ∧ TermReader.Exceeds d (Grammar.series ctx .terms .terms c).bare := by
  simp [Item.Exceeds, Grammar.bare_elements, Exceeds.ite_iff, Exceeds.andThen_iff]

theorem more_iff {k : Series} : (more k).Exceeds ctx d c ↔
    ∃ j, k.joint? c.lookahead = some j ∧ ((one k.operand).Exceeds ctx d (c.past j) ∨
      ∃ x c₁, (one k.operand).Returns ctx (c.past j) x c₁ ∧ (more k).Exceeds ctx d c₁) := by
  conv => lhs; rw [Item.Exceeds, Grammar.bare_more]
  cases k.joint? c.lookahead with
  | none => simp
  | some j => simp [Item.Exceeds, Item.Returns, Grammar.stepped, Exceeds.andThen_iff]

theorem dimensions_iff : dimensions.Exceeds ctx d c ↔ c.lookahead = "<" ∧
    TermReader.Exceeds d (Grammar.series ctx .terms .dimensions c.next).bare := by
  simp [Item.Exceeds, Grammar.bare_dimensions, Exceeds.ite_iff, Exceeds.andThen_iff]

end Item.Exceeds

/-- What makes reading an item fail at a numeral is begun by the item, unless this is the
primary phrase of the numeral. -/
def Passes (ctx : Context) (d : Nat) (i : Item) (ts : List Token) : Prop :=
  ∃ j c', Begins ctx (i, ts) (j, c'.rest) ∧ j.Exceeds ctx d c'

theorem Passes.series {ctx : Context} {d : Nat} {i : Item} {ts : List Token} {k : Series}
    {c : Cursor} (h : Starts ctx i ts k c.rest)
    (hseries : Exceeds d (Grammar.series ctx .terms k c).bare) : Passes ctx d i ts := by
  obtain hfirst | ⟨x, c₁, hx, hlater⟩ := Item.Exceeds.series_iff.1 hseries
  · exact ⟨_, c, .first h, hfirst⟩
  · exact ⟨_, c₁, .later h hx.reads, hlater⟩

namespace Item.Exceeds

variable {ctx : Context} {d : Nat} {c : Cursor}

theorem passes_unary (h : (one .unary).Exceeds ctx d c) : Passes ctx d (.one .unary) c.rest := by
  rw [unary_iff] at h
  split at h
  · next hminus =>
    rw [Cursor.rest_eq_cons hminus (by decide)]
    exact ⟨_, c.next, .minus, h⟩
  next hminus =>
  split at h
  · next hnot =>
    rw [Cursor.rest_eq_cons hnot (by decide)]
    exact ⟨_, c.next, .not, h⟩
  next hnot =>
  obtain h | ⟨x, c₁, hx, h⟩ := h
  · exact ⟨_, c, .plain hminus hnot, h⟩
  obtain ⟨hopen, h⟩ := indexed_iff.1 h
  have hx' := Cursor.rest_eq_cons hopen (by decide) ▸ hx.reads
  obtain h | ⟨i, c₂, hi, hcomma, h⟩ := h
  · exact ⟨_, c₁.next, .index1 hminus hnot hx', h⟩
  · have hi' := Cursor.rest_eq_cons hcomma (by decide) ▸ hi.reads
    exact ⟨_, c₂.next, .index2 hminus hnot hx' hi', h⟩

theorem passes_primary (h : (one .primary).Exceeds ctx d c)
    (hne : ctx.opening c.lookahead ≠ .excess d) : Passes ctx d (.one .primary) c.rest := by
  obtain ⟨hend, h⟩ := primary_iff.1 h
  rw [Cursor.rest_eq_lookahead_cons hend]
  generalize ho : ctx.opening c.lookahead = o at h hne
  rw [opened_iff] at h
  cases o with
  | leaf l => exact h.elim
  | none => exact h.elim
  | excess e => exact absurd (congrArg _ h) hne
  | paren => exact ⟨_, c.next, .paren ho, h⟩
  | bar => exact ⟨_, c.next, .bar ho, h⟩
  | brace => exact .series (.set ho) h
  | bracket =>
    simp only at h
    split at h
    · next hrow => exact .series (.matrix ho hrow) h
    · next hrow => exact ⟨_, c.next, .vector ho hrow, h⟩
  | call =>
    obtain h | ⟨dims, c₁, hdims, h⟩ := h
    · exact ⟨_, c.next, .dimensions ho, h⟩
    have hreads := hdims.reads
    rw [applied_iff] at h
    split at h
    · next hparen =>
      rw [Cursor.rest_eq_cons hparen (by decide)] at hreads
      exact .series (.arguments ho hreads h.1) h.2
    · next hparen =>
      obtain ⟨hone, rfl, h⟩ := h
      obtain ⟨hrest, hangle⟩ := hreads.dimensions_nil
      rw [← hrest] at hangle ⊢
      exact ⟨_, c₁, .apply ho hangle hparen hone, h⟩

/-- One step: the failure comes from something that is begun, unless it arises here. -/
theorem passes {i : Item} (h : i.Exceeds ctx d c) :
    (i = .one .primary ∧ ctx.opening c.lookahead = .excess d) ∨ Passes ctx d i c.rest := by
  cases i with
  | dimensions =>
    obtain ⟨hangle, h⟩ := dimensions_iff.1 h
    rw [Cursor.rest_eq_cons hangle (by decide)]
    exact .inr (.series .dimensions h)
  | more k =>
    obtain ⟨j, hjoint, h⟩ := more_iff.1 h
    obtain h | ⟨x, c₁, hx, h⟩ := h
    · exact .inr ⟨_, c.past j, c.rest_past j ▸ .next hjoint, h⟩
    · exact .inr ⟨_, c₁, .rest hjoint (c.rest_past j ▸ hx.reads), h⟩
  | one p =>
    cases p with
    | primary =>
      by_cases ho : ctx.opening c.lookahead = .excess d
      · exact .inl ⟨rfl, ho⟩
      · exact .inr (passes_primary h ho)
    | unary => exact .inr (passes_unary h)
    | sum => exact .inr (.series .sum (sum_iff.1 h))
    | product => exact .inr (.series .product (product_iff.1 h))
    | tier t =>
      obtain h | ⟨x, c₁, hx, hop, h⟩ := tier_iff.1 h
      · exact .inr ⟨_, c, .left, h⟩
      · have hx' := Cursor.rest_eq_cons rfl (Tier.ne_endMark hop) ▸ hx.reads
        exact .inr ⟨_, c₁.next, .right hx' hop, h⟩
    | power =>
      obtain h | ⟨x, c₁, hx, hop, h⟩ := power_iff.1 h
      · exact .inr ⟨_, c, .base, h⟩
      · have hx' := Cursor.rest_eq_cons hop (by decide) ▸ hx.reads
        exact .inr ⟨_, c₁.next, .exponent hx', h⟩
    | row =>
      obtain ⟨hopen, h⟩ := row_iff.1 h
      rw [Cursor.rest_eq_cons hopen (by decide)]
      exact .inr ⟨_, c.next, .row, h⟩
    | elements =>
      obtain ⟨hclose, h⟩ := elements_iff.1 h
      exact .inr (.series (.elements hclose) h)

end Item.Exceeds

section Back

variable {ctx : Context} {d : Nat}

theorem Starts.exceeds {i : Item} {ts us : List Token} {k : Series} (h : Starts ctx i ts k us)
    (hseries : ∀ m, Exceeds d (Grammar.series ctx .terms k ⟨m, us⟩).bare) (n : Nat) :
    i.Exceeds ctx d ⟨n, ts⟩ := by
  cases h with
  | sum => exact Item.Exceeds.sum_iff.2 (hseries n)
  | product => exact Item.Exceeds.product_iff.2 (hseries n)
  | elements hclose => exact Item.Exceeds.elements_iff.2 ⟨hclose, hseries n⟩
  | dimensions => exact Item.Exceeds.dimensions_iff.2 ⟨rfl, hseries (n + 1)⟩
  | set ht => exact .of_opened ht (Item.Exceeds.opened_iff.2 (hseries (n + 1)))
  | matrix ht hrow =>
    refine .of_opened ht (Item.Exceeds.opened_iff.2 ?_)
    exact (if_pos hrow).mpr (hseries (n + 1))
  | arguments ht hdims hsome =>
    obtain ⟨m, hdims, _⟩ := hdims.moves (n + 1)
    refine .of_opened ht (Item.Exceeds.opened_iff.2 (.inr ⟨_, _, hdims, ?_⟩))
    exact Item.Exceeds.applied_iff.2 ((if_pos rfl).mpr ⟨hsome, hseries (m + 1)⟩)

/-- One step back: what is begun in front of the numeral makes the whole fail. -/
theorem Begins.exceeds {x y : Item × List Token} (h : Begins ctx x y)
    (hy : ∀ m, y.1.Exceeds ctx d ⟨m, y.2⟩) (n : Nat) : x.1.Exceeds ctx d ⟨n, x.2⟩ := by
  cases h with
  | left => exact Item.Exceeds.tier_iff.2 (.inl (hy n))
  | right hx hop =>
    obtain ⟨m, hx, _⟩ := hx.moves n
    exact Item.Exceeds.tier_iff.2 (.inr ⟨_, _, hx, hop, hy (m + 1)⟩)
  | base => exact Item.Exceeds.power_iff.2 (.inl (hy n))
  | exponent hx =>
    obtain ⟨m, hx, _⟩ := hx.moves n
    exact Item.Exceeds.power_iff.2 (.inr ⟨_, _, hx, rfl, hy (m + 1)⟩)
  | minus => exact Item.Exceeds.unary_iff.2 ((if_pos rfl).mpr (hy (n + 1)))
  | not =>
    refine Item.Exceeds.unary_iff.2 ((if_neg (by decide : "!" ≠ "-")).mpr ?_)
    exact (if_pos rfl).mpr (hy (n + 1))
  | plain hminus hnot =>
    refine Item.Exceeds.unary_iff.2 ((if_neg hminus).mpr ((if_neg hnot).mpr ?_))
    exact .inl (hy n)
  | index1 hminus hnot hx =>
    obtain ⟨m, hx, _⟩ := hx.moves n
    refine Item.Exceeds.unary_iff.2 ((if_neg hminus).mpr ((if_neg hnot).mpr ?_))
    exact .inr ⟨_, _, hx, Item.Exceeds.indexed_iff.2 ⟨rfl, .inl (hy (m + 1))⟩⟩
  | index2 hminus hnot hx hi =>
    obtain ⟨m, hx, _⟩ := hx.moves n
    obtain ⟨m', hi, _⟩ := hi.moves (m + 1)
    refine Item.Exceeds.unary_iff.2 ((if_neg hminus).mpr ((if_neg hnot).mpr ?_))
    refine .inr ⟨_, _, hx, Item.Exceeds.indexed_iff.2 ⟨rfl, .inr ?_⟩⟩
    exact ⟨_, _, hi, rfl, hy (m' + 1)⟩
  | paren ht => exact .of_opened ht (Item.Exceeds.opened_iff.2 (hy (n + 1)))
  | bar ht => exact .of_opened ht (Item.Exceeds.opened_iff.2 (hy (n + 1)))
  | vector ht hrow =>
    exact .of_opened ht (Item.Exceeds.opened_iff.2 ((if_neg hrow).mpr (hy (n + 1))))
  | dimensions ht => exact .of_opened ht (Item.Exceeds.opened_iff.2 (.inl (hy (n + 1))))
  | apply ht hangle hparen hone =>
    obtain ⟨m, hdims, _⟩ := (@Reads.noDimensions ctx _ hangle).moves (n + 1)
    refine .of_opened ht (Item.Exceeds.opened_iff.2 (.inr ⟨_, _, hdims, ?_⟩))
    exact Item.Exceeds.applied_iff.2 ((if_neg hparen).mpr ⟨hone, rfl, hy m⟩)
  | row => exact Item.Exceeds.row_iff.2 ⟨rfl, hy (n + 1)⟩
  | first h => exact h.exceeds (fun m => Item.Exceeds.series_iff.2 (.inl (hy m))) n
  | later h hx =>
    refine h.exceeds (fun m => Item.Exceeds.series_iff.2 (.inr ?_)) n
    obtain ⟨m', hx, _⟩ := hx.moves m
    exact ⟨_, _, hx, hy m'⟩
  | next hjoint =>
    obtain ⟨n', hpast, _⟩ := Series.past_eq_of_joint hjoint n
    exact Item.Exceeds.more_iff.2 ⟨_, hjoint, .inl (hpast ▸ hy n')⟩
  | rest hjoint hx =>
    obtain ⟨n', hpast, _⟩ := Series.past_eq_of_joint hjoint n
    obtain ⟨m, hx, _⟩ := hx.moves n'
    exact Item.Exceeds.more_iff.2 ⟨_, hjoint, .inr ⟨_, _, hpast ▸ hx, hy m⟩⟩

end Back

/-- While a token stream is read as a term, the reader comes to begin a primary phrase in front
of the tokens. -/
def Reaches (ctx : Context) (tokens rest : List Token) : Prop :=
  Relation.ReflTransGen (Begins ctx) (.one .term, tokens) (.one .primary, rest)

namespace Grammar

variable {ctx : Context} {d : Nat}

/-- Reading an item fails at a numeral exactly if it leads to a primary phrase in front of it.
The run of the reader is followed down, step by step, with fewer tokens or a lower rank. -/
theorem exceeds_iff {i : Item} {n : Nat} {ts : List Token} : i.Exceeds ctx d ⟨n, ts⟩ ↔
    ∃ rest, rest ≠ [] ∧ ctx.opening (lead rest) = .excess d ∧
      Relation.ReflTransGen (Begins ctx) (i, ts) (.one .primary, rest) := by
  constructor
  · intro h
    induction hw : Item.weight (i, ts) using Nat.strong_induction_on generalizing i n ts with
    | h w ih =>
    obtain ⟨rfl, ho⟩ | ⟨j, c', hbegins, hj⟩ := h.passes
    · exact ⟨ts, (Item.Exceeds.primary_iff.1 h).1, ho, .refl⟩
    · obtain ⟨rest, hrest, ho, hreach⟩ := ih _ (hw ▸ hbegins.weight_lt) hj rfl
      exact ⟨rest, hrest, ho, .head hbegins hreach⟩
  · rintro ⟨rest, hrest, ho, hreach⟩
    have hback {x : Item × List Token}
        (hx : Relation.ReflTransGen (Begins ctx) x (.one .primary, rest)) :
        ∀ m, x.1.Exceeds ctx d ⟨m, x.2⟩ := by
      induction hx using Relation.ReflTransGen.head_induction_on with
      | refl =>
        intro m
        have hlead : ctx.opening (⟨m, rest⟩ : Cursor).lookahead = .excess d := ho
        refine Item.Exceeds.primary_iff.2 ⟨hrest, ?_⟩
        rw [hlead]
        exact Item.Exceeds.opened_iff.2 rfl
      | head hbegins _ ih => exact hbegins.exceeds ih
    exact hback hreach n

/-- Reading a token stream fails at a numeral exactly if the reader comes to begin a primary
phrase in front of it. -/
theorem read_eq_excess_iff {tokens : List Token} :
    read ctx .terms tokens () = .error (.excessDigits d) () ↔
      ∃ rest, rest ≠ [] ∧ ctx.opening (lead rest) = .excess d ∧ Reaches ctx tokens rest := by
  have hread : read ctx .terms tokens = (phrase ctx .terms .term (.start tokens)).andThen
      fun x c => if c.rest = [Token.endMark] then pure x
        else throw (c.reject .trailingTokens none) := rfl
  change Exceeds d (read ctx .terms tokens) ↔ _
  rw [hread, Exceeds.andThen_iff]
  simp only [Exceeds.ite_iff, Exceeds.pure_iff, Exceeds.reject_iff, and_false, or_false,
    exists_false]
  exact exceeds_iff (i := .one .term) (n := 0)

end Grammar

end TermReader
