import TermReader.Proofs.Inversion

/-!
Whatever the rules derive is returned by the reader, from every position in the
input. There is one lemma for each rule, which puts the runs of its parts together.
With the inversion the reader returns exactly what the rules derive.
-/

namespace TermReader

/-- The reader returns the value of an item and the cursor behind it. -/
def Item.Returns (ctx : Context) : (i : Item) → Cursor → i.Value → Cursor → Prop
  | one p, c, x, c' => ∃ h, Yields (Grammar.phrase ctx .terms p c) ⟨x, c', h⟩
  | more k, c, later, c' => ∃ h, Yields (Grammar.more ctx .terms k c) ⟨later, c', h⟩
  | dimensions, c, dims, c' => ∃ h, Yields (Grammar.dimensions ctx .terms c) ⟨dims, c', h⟩

/-- An item that is read moves the cursor by the tokens it takes. -/
def Item.Moves (ctx : Context) (i : Item) (ts : List Token) (x : i.Value) (rest : List Token)
    (n : Nat) : Prop :=
  ∃ m, i.Returns ctx ⟨n, ts⟩ x ⟨m, rest⟩ ∧ m + rest.length = n + ts.length

/-- A joint in the input is a token of its own, an implied one is none. -/
theorem Series.past_eq_of_joint {k : Series} {ts : List Token} {j : Joint}
    (h : k.joint? (lead ts) = some j) (n : Nat) :
    ∃ n', (⟨n, ts⟩ : Cursor).past j = ⟨n', j.past ts⟩ ∧
      n' + (j.past ts).length = n + ts.length := by
  cases ts with
  | nil =>
    have hend : k.joint? (lead []) = none := k.joint?_endMark
    rw [hend] at h
    cases h
  | cons t ts =>
    cases j with
    | written op =>
      refine ⟨n + 1, rfl, ?_⟩
      simp only [Joint.past, List.tail_cons, List.length_cons]
      omega
    | implied => exact ⟨n, rfl, rfl⟩

namespace Item.Moves

variable {ctx : Context} {n : Nat} {t : Token} {ts ts₁ ts₂ rest : List Token} {x y z : Term}
  {later : List (Token × Term)} {dims : List Term}

theorem series {k : Series} (hx : (one k.operand).Moves ctx ts x ts₁ n)
    (hlater : ∀ m, (more k).Moves ctx ts₁ later rest m) :
    ∃ m h, Yields (Grammar.series ctx .terms k ⟨n, ts⟩) ⟨(x, later), ⟨m, rest⟩, h⟩ ∧
      m + rest.length = n + ts.length := by
  obtain ⟨m₁, ⟨h₁, hx⟩, hm₁⟩ := hx
  obtain ⟨m₂, ⟨h₂, hlater⟩, hm₂⟩ := hlater m₁
  refine ⟨m₂, Nat.lt_of_le_of_lt (Nat.le_of_lt_succ h₂) h₁, ?_, by omega⟩
  unfold Grammar.series
  exact .bind hx (.bind hlater (.pure _))

section Chains

variable (hlt : rest.length < ts.length)

theorem single {t : Tier} (hx : (one t.operand).Moves ctx ts x rest n)
    (hstop : lead rest ∉ t.operators) : (one (.tier t)).Moves ctx ts x rest n := by
  obtain ⟨m, ⟨h, hx⟩, hm⟩ := hx
  refine ⟨m, ⟨h, ?_⟩, hm⟩
  unfold Grammar.phrase
  exact .bind hx (.of_neg hstop (.pure _))

theorem sum (hx : (one .product).Moves ctx ts x ts₁ n)
    (hlater : ∀ m, (more .summands).Moves ctx ts₁ later rest m) :
    (one .sum).Moves ctx ts (.ofSum x later) rest n := by
  obtain ⟨m, h, hseries, hm⟩ := series hx hlater
  refine ⟨m, ⟨h, ?_⟩, hm⟩
  unfold Grammar.phrase
  refine .bind hseries ?_
  simp only [Builder.terms_makeSum, pure_bind]
  exact .pure _

theorem product (hx : (one .power).Moves ctx ts x ts₁ n)
    (hlater : ∀ m, (more .factors).Moves ctx ts₁ later rest m) :
    (one .product).Moves ctx ts (.ofProduct x later) rest n := by
  obtain ⟨m, h, hseries, hm⟩ := series hx hlater
  refine ⟨m, ⟨h, ?_⟩, hm⟩
  unfold Grammar.phrase
  refine .bind hseries ?_
  simp only [Builder.terms_makeProduct, pure_bind]
  exact .pure _

theorem base (hx : (one .unary).Moves ctx ts x rest n) (hstop : lead rest ≠ "^") :
    (one .power).Moves ctx ts x rest n := by
  obtain ⟨m, ⟨h, hx⟩, hm⟩ := hx
  refine ⟨m, ⟨h, ?_⟩, hm⟩
  unfold Grammar.phrase
  exact .bind hx (.of_neg hstop (.pure _))

theorem plain (hminus : lead ts ≠ "-") (hnot : lead ts ≠ "!")
    (hx : (one .primary).Moves ctx ts x rest n) (hstop : lead rest ≠ "[") :
    (one .unary).Moves ctx ts x rest n := by
  obtain ⟨m, ⟨h, hx⟩, hm⟩ := hx
  refine ⟨m, ⟨h, ?_⟩, hm⟩
  unfold Grammar.phrase
  exact .of_dneg hminus (.of_dneg hnot (.bind hx (.of_neg hstop (.pure _))))

include hlt

theorem joined {t : Tier} {op : Token} (hx : (one t.operand).Moves ctx ts x (op :: ts₁) n)
    (hop : op ∈ t.operators) (hy : ∀ m, (one t.operand).Moves ctx ts₁ y rest m) :
    (one (.tier t)).Moves ctx ts (.node op [x, y] []) rest n := by
  obtain ⟨m₁, ⟨h₁, hx⟩, hm₁⟩ := hx
  obtain ⟨m₂, ⟨h₂, hy⟩, hm₂⟩ := hy (m₁ + 1)
  rw [List.length_cons] at hm₁
  refine ⟨m₂, ⟨hlt, ?_⟩, by omega⟩
  unfold Grammar.phrase
  exact .bind hx (.of_pos hop (.bind hy (.pure _)))

theorem power (hx : (one .unary).Moves ctx ts x ("^" :: ts₁) n)
    (hy : ∀ m, (one .unary).Moves ctx ts₁ y rest m) :
    (one .power).Moves ctx ts (.node "^" [x, y] []) rest n := by
  obtain ⟨m₁, ⟨h₁, hx⟩, hm₁⟩ := hx
  obtain ⟨m₂, ⟨h₂, hy⟩, hm₂⟩ := hy (m₁ + 1)
  rw [List.length_cons] at hm₁
  refine ⟨m₂, ⟨hlt, ?_⟩, by omega⟩
  unfold Grammar.phrase
  exact .bind hx (.of_pos rfl (.bind hy (.pure _)))

theorem index1 (hminus : lead ts ≠ "-") (hnot : lead ts ≠ "!")
    (hx : (one .primary).Moves ctx ts x ("[" :: ts₁) n)
    (hy : ∀ m, (one .term).Moves ctx ts₁ y ("]" :: rest) m) :
    (one .unary).Moves ctx ts (.node "index1" [x, y] []) rest n := by
  obtain ⟨m₁, ⟨h₁, hx⟩, hm₁⟩ := hx
  obtain ⟨m₂, ⟨h₂, hy⟩, hm₂⟩ := hy (m₁ + 1)
  rw [List.length_cons] at hm₁ hm₂
  refine ⟨m₂ + 1, ⟨hlt, ?_⟩, by omega⟩
  unfold Grammar.phrase
  refine .of_dneg hminus (.of_dneg hnot (.bind hx (.of_pos rfl (.bind hy ?_))))
  refine .of_neg (by decide : "]" ≠ ",") (.bind (.pure _) ?_)
  exact .bind (.expect rfl) (.pure _)

theorem index2 (hminus : lead ts ≠ "-") (hnot : lead ts ≠ "!")
    (hx : (one .primary).Moves ctx ts x ("[" :: ts₁) n)
    (hy : ∀ m, (one .term).Moves ctx ts₁ y ("," :: ts₂) m)
    (hz : ∀ m, (one .term).Moves ctx ts₂ z ("]" :: rest) m) :
    (one .unary).Moves ctx ts (.node "index2" [x, y, z] []) rest n := by
  obtain ⟨m₁, ⟨h₁, hx⟩, hm₁⟩ := hx
  obtain ⟨m₂, ⟨h₂, hy⟩, hm₂⟩ := hy (m₁ + 1)
  obtain ⟨m₃, ⟨h₃, hz⟩, hm₃⟩ := hz (m₂ + 1)
  rw [List.length_cons] at hm₁ hm₂ hm₃
  refine ⟨m₃ + 1, ⟨hlt, ?_⟩, by omega⟩
  unfold Grammar.phrase
  refine .of_dneg hminus (.of_dneg hnot (.bind hx (.of_pos rfl (.bind hy ?_))))
  refine .of_pos rfl (.bind hz (.bind (.pure _) ?_))
  exact .bind (.expect rfl) (.pure _)

theorem elements (hclose : lead ts ≠ "]") (hx : (one .term).Moves ctx ts x ts₁ n)
    (hlater : ∀ m, (more .terms).Moves ctx ts₁ later ("]" :: rest) m) :
    (one .elements).Moves ctx ts (.node "vec" (Term.operands x later) []) rest n := by
  obtain ⟨m, h, hseries, hm⟩ := series (k := .terms) hx hlater
  rw [List.length_cons] at hm
  refine ⟨m + 1, ⟨hlt, ?_⟩, by omega⟩
  unfold Grammar.phrase
  exact .of_dneg hclose (.bind hseries (.bind (.expect rfl) (.bind (.pure _) (.pure _))))

end Chains

/-! The first token of these items is a symbol of their own. -/

theorem minus (hlt : rest.length < ("-" :: ts).length)
    (hx : (one .product).Moves ctx ts x rest (n + 1)) :
    (one .unary).Moves ctx ("-" :: ts) (.node ".-" [x] []) rest n := by
  obtain ⟨m, ⟨h, hx⟩, hm⟩ := hx
  refine ⟨m, ⟨hlt, ?_⟩, by rw [List.length_cons]; omega⟩
  unfold Grammar.phrase
  exact .of_dpos rfl (.bind hx (.pure _))

theorem not (hlt : rest.length < ("!" :: ts).length)
    (hx : (one .primary).Moves ctx ts x rest (n + 1)) :
    (one .unary).Moves ctx ("!" :: ts) (.node "!" [x] []) rest n := by
  obtain ⟨m, ⟨h, hx⟩, hm⟩ := hx
  refine ⟨m, ⟨hlt, ?_⟩, by rw [List.length_cons]; omega⟩
  unfold Grammar.phrase
  exact .of_dneg (by decide : "!" ≠ "-") (.of_dpos rfl (.bind hx (.pure _)))

theorem row (hlt : rest.length < ("[" :: ts).length)
    (hx : (one .elements).Moves ctx ts x rest (n + 1)) :
    (one .row).Moves ctx ("[" :: ts) x rest n := by
  obtain ⟨m, ⟨h, hx⟩, hm⟩ := hx
  refine ⟨m, ⟨hlt, ?_⟩, by rw [List.length_cons]; omega⟩
  unfold Grammar.phrase
  exact .of_dpos rfl (.bind hx (.pure _))

theorem empty : (one .elements).Moves ctx ("]" :: rest) (.node "vec" [] []) rest n := by
  refine ⟨n + 1, ⟨Nat.lt_succ_self _, ?_⟩, by rw [List.length_cons]; omega⟩
  unfold Grammar.phrase
  exact .of_dpos rfl (.bind (.pure _) (.pure _))

/-! A primary phrase is what its first token opens. -/

section Primary

variable (hlt : rest.length < (t :: ts).length)

theorem leaf {l : Leaf} (ht : ctx.opening t = .leaf l) :
    (one .primary).Moves ctx (t :: rest) (.leaf l) rest n := by
  refine ⟨n + 1, ⟨Nat.lt_succ_self _, ?_⟩, by rw [List.length_cons]; omega⟩
  have hopening : ctx.opening (⟨n, t :: rest⟩ : Cursor).lookahead = .leaf l := ht
  unfold Grammar.phrase
  refine .of_dneg (List.cons_ne_nil t rest) ?_
  simp only [hopening]
  exact .bind (.pure _) (.pure _)

include hlt

theorem paren (ht : ctx.opening t = .paren)
    (hx : (one .term).Moves ctx ts x (")" :: rest) (n + 1)) :
    (one .primary).Moves ctx (t :: ts) x rest n := by
  obtain ⟨m, ⟨h, hx⟩, hm⟩ := hx
  rw [List.length_cons] at hm
  refine ⟨m + 1, ⟨hlt, ?_⟩, by rw [List.length_cons]; omega⟩
  have hopening : ctx.opening (⟨n, t :: ts⟩ : Cursor).lookahead = .paren := ht
  unfold Grammar.phrase
  refine .of_dneg (List.cons_ne_nil t ts) ?_
  simp only [hopening]
  exact .bind hx (.bind (.expect rfl) (.pure _))

theorem bar (ht : ctx.opening t = .bar)
    (hx : (one .term).Moves ctx ts x ("|" :: rest) (n + 1)) :
    (one .primary).Moves ctx (t :: ts) (.node "abs" [x] []) rest n := by
  obtain ⟨m, ⟨h, hx⟩, hm⟩ := hx
  rw [List.length_cons] at hm
  refine ⟨m + 1, ⟨hlt, ?_⟩, by rw [List.length_cons]; omega⟩
  have hopening : ctx.opening (⟨n, t :: ts⟩ : Cursor).lookahead = .bar := ht
  unfold Grammar.phrase
  refine .of_dneg (List.cons_ne_nil t ts) ?_
  simp only [hopening]
  exact .bind hx (.bind (.expect rfl) (.bind (.pure _) (.pure _)))

theorem vector (ht : ctx.opening t = .bracket) (hrow : lead ts ≠ "[")
    (hx : (one .elements).Moves ctx ts x rest (n + 1)) :
    (one .primary).Moves ctx (t :: ts) x rest n := by
  obtain ⟨m, ⟨h, hx⟩, hm⟩ := hx
  refine ⟨m, ⟨hlt, ?_⟩, by rw [List.length_cons]; omega⟩
  have hopening : ctx.opening (⟨n, t :: ts⟩ : Cursor).lookahead = .bracket := ht
  unfold Grammar.phrase
  refine .of_dneg (List.cons_ne_nil t ts) ?_
  simp only [hopening]
  exact .of_neg hrow (.bind hx (.pure _))

theorem matrix (ht : ctx.opening t = .bracket) (hrow : lead ts = "[")
    (hx : (one .row).Moves ctx ts x ts₁ (n + 1))
    (hlater : ∀ m, (more .rows).Moves ctx ts₁ later ("]" :: rest) m) :
    (one .primary).Moves ctx (t :: ts) (.node "matrix" (Term.operands x later) []) rest n := by
  obtain ⟨m, h, hseries, hm⟩ := series (k := .rows) hx hlater
  rw [List.length_cons] at hm
  refine ⟨m + 1, ⟨hlt, ?_⟩, by rw [List.length_cons]; omega⟩
  have hopening : ctx.opening (⟨n, t :: ts⟩ : Cursor).lookahead = .bracket := ht
  unfold Grammar.phrase
  refine .of_dneg (List.cons_ne_nil t ts) ?_
  simp only [hopening]
  exact .of_pos hrow (.bind hseries (.bind (.expect rfl) (.bind (.pure _) (.pure _))))

theorem set (ht : ctx.opening t = .brace) (hx : (one .term).Moves ctx ts x ts₁ (n + 1))
    (hlater : ∀ m, (more .terms).Moves ctx ts₁ later ("\x7d" :: rest) m) :
    (one .primary).Moves ctx (t :: ts) (.node "set" (Term.operands x later) []) rest n := by
  obtain ⟨m, h, hseries, hm⟩ := series (k := .terms) hx hlater
  rw [List.length_cons] at hm
  refine ⟨m + 1, ⟨hlt, ?_⟩, by rw [List.length_cons]; omega⟩
  have hopening : ctx.opening (⟨n, t :: ts⟩ : Cursor).lookahead = .brace := ht
  unfold Grammar.phrase
  refine .of_dneg (List.cons_ne_nil t ts) ?_
  simp only [hopening]
  exact .bind hseries (.bind (.expect rfl) (.bind (.pure _) (.pure _)))

theorem callNone (ht : ctx.opening t = .call)
    (hdims : dimensions.Moves ctx ts dims ("(" :: ")" :: rest) (n + 1))
    (hcount : 0 ∈ ctx.arities t) :
    (one .primary).Moves ctx (t :: ts) (.node t [] dims) rest n := by
  obtain ⟨m, ⟨h, hdims⟩, hm⟩ := hdims
  rw [List.length_cons, List.length_cons] at hm
  refine ⟨m + 2, ⟨hlt, ?_⟩, by rw [List.length_cons]; omega⟩
  have hopening : ctx.opening (⟨n, t :: ts⟩ : Cursor).lookahead = .call := ht
  unfold Grammar.phrase
  refine .of_dneg (List.cons_ne_nil t ts) ?_
  simp only [hopening]
  unfold Grammar.call
  refine .bind hdims (.of_pos rfl (.of_pos hcount (.bind (.pure _) ?_)))
  exact .bind (.expect rfl) (.of_pos hcount (.bind (.pure _) (.pure _)))

theorem callSome (ht : ctx.opening t = .call)
    (hdims : dimensions.Moves ctx ts dims ("(" :: ts₁) (n + 1)) (hsome : 0 ∉ ctx.arities t)
    (hx : ∀ m, (one .term).Moves ctx ts₁ x ts₂ m)
    (hlater : ∀ m, (more .terms).Moves ctx ts₂ later (")" :: rest) m)
    (hcount : (Term.operands x later).length ∈ ctx.arities t) :
    (one .primary).Moves ctx (t :: ts) (.node t (Term.operands x later) dims) rest n := by
  obtain ⟨m₁, ⟨h₁, hdims⟩, hm₁⟩ := hdims
  obtain ⟨m₂, h₂, hseries, hm₂⟩ := series (k := .terms) (hx (m₁ + 1)) hlater
  rw [List.length_cons] at hm₁ hm₂
  refine ⟨m₂ + 1, ⟨hlt, ?_⟩, by rw [List.length_cons]; omega⟩
  have hopening : ctx.opening (⟨n, t :: ts⟩ : Cursor).lookahead = .call := ht
  obtain ⟨h₂', hargs⟩ : ∃ h, Yields (Grammar.arguments ctx .terms ⟨m₁ + 1, ts₁⟩)
      ⟨Term.operands x later, ⟨m₂, ")" :: rest⟩, h⟩ := by
    refine ⟨Nat.lt_succ_of_lt h₂, ?_⟩
    unfold Grammar.arguments
    exact .bind hseries (.pure _)
  unfold Grammar.phrase
  refine .of_dneg (List.cons_ne_nil t ts) ?_
  simp only [hopening]
  unfold Grammar.call
  refine .bind hdims (.of_pos rfl (.of_neg hsome (.bind hargs ?_)))
  exact .bind (.expect rfl) (.of_pos hcount (.bind (.pure _) (.pure _)))

theorem apply (ht : ctx.opening t = .call) (hdims : dimensions.Moves ctx ts [] ts (n + 1))
    (hparen : lead ts ≠ "(") (hone : 1 ∈ ctx.arities t)
    (hx : ∀ m, (one .unary).Moves ctx ts x rest m) :
    (one .primary).Moves ctx (t :: ts) (.node t [x] []) rest n := by
  obtain ⟨m₁, ⟨h₁, hdims⟩, hm₁⟩ := hdims
  obtain ⟨m₂, ⟨h₂, hx⟩, hm₂⟩ := hx m₁
  refine ⟨m₂, ⟨hlt, ?_⟩, by rw [List.length_cons]; omega⟩
  have hopening : ctx.opening (⟨n, t :: ts⟩ : Cursor).lookahead = .call := ht
  unfold Grammar.phrase
  refine .of_dneg (List.cons_ne_nil t ts) ?_
  simp only [hopening]
  unfold Grammar.call
  refine .bind hdims (.of_neg hparen (.of_pos ⟨hone, rfl⟩ (.bind hx ?_)))
  exact .bind (.pure _) (.pure _)

end Primary

section Lists

variable {k : Series}

theorem stop (hjoint : k.joint? (lead ts) = none) : (more k).Moves ctx ts [] ts n := by
  refine ⟨n, ⟨Nat.lt_succ_self _, ?_⟩, rfl⟩
  have hjoint' : k.joint? (⟨n, ts⟩ : Cursor).lookahead = none := hjoint
  unfold Grammar.more
  simp only [hjoint']
  exact .pure _

theorem step {j : Joint} (hle : rest.length ≤ ts.length) (hjoint : k.joint? (lead ts) = some j)
    (hx : ∀ m, (one k.operand).Moves ctx (j.past ts) x ts₁ m)
    (hlater : ∀ m, (more k).Moves ctx ts₁ later rest m) :
    (more k).Moves ctx ts ((j.operator, x) :: later) rest n := by
  obtain ⟨n', hpast, hn'⟩ := Series.past_eq_of_joint hjoint n
  obtain ⟨m₁, ⟨h₁, hx⟩, hm₁⟩ := hx n'
  obtain ⟨m₂, ⟨h₂, hlater⟩, hm₂⟩ := hlater m₁
  refine ⟨m₂, ⟨Nat.lt_succ_of_le hle, ?_⟩, by omega⟩
  have hjoint' : k.joint? (⟨n, ts⟩ : Cursor).lookahead = some j := hjoint
  obtain ⟨h₁', hx'⟩ : ∃ h, Yields (Grammar.phrase ctx .terms k.operand
      ((⟨n, ts⟩ : Cursor).past j)) ⟨x, ⟨m₁, ts₁⟩, h⟩ := hpast ▸ ⟨h₁, hx⟩
  unfold Grammar.more
  simp only [hjoint']
  exact .bind hx' (.bind hlater (.pure _))

theorem noDimensions (hangle : lead ts ≠ "<") : dimensions.Moves ctx ts [] ts n := by
  refine ⟨n, ⟨Nat.lt_succ_self _, ?_⟩, rfl⟩
  unfold Grammar.dimensions
  exact .of_neg hangle (.pure _)

theorem someDimensions (hle : rest.length ≤ ("<" :: ts).length)
    (hx : (one .unary).Moves ctx ts x ts₁ (n + 1))
    (hlater : ∀ m, (more .dimensions).Moves ctx ts₁ later (">" :: rest) m) :
    dimensions.Moves ctx ("<" :: ts) (Term.operands x later) rest n := by
  obtain ⟨m, h, hseries, hm⟩ := series (k := .dimensions) hx hlater
  rw [List.length_cons] at hm
  refine ⟨m + 1, ⟨Nat.lt_succ_of_le hle, ?_⟩, by rw [List.length_cons]; omega⟩
  unfold Grammar.dimensions
  exact .of_pos rfl (.bind hseries (.bind (.expect rfl) (.pure _)))

end Lists

end Item.Moves

/-- Whatever the rules derive is returned by the reader. -/
theorem Reads.moves {ctx : Context} {i : Item} {ts rest : List Token} {x : i.Value}
    (h : Reads ctx i ts x rest) : ∀ n, i.Moves ctx ts x rest n := by
  induction h with
  | single hx hstop ih => exact fun n => (ih n).single hstop
  | joined hx hop hy ihx ihy => exact fun n => .joined (joined hx hop hy).shortens (ihx n) hop ihy
  | sum hx hlater ihx ihlater => exact fun n => (ihx n).sum ihlater
  | product hx hlater ihx ihlater => exact fun n => (ihx n).product ihlater
  | base hx hstop ih => exact fun n => (ih n).base hstop
  | power hx hy ihx ihy => exact fun n => .power (power hx hy).shortens (ihx n) ihy
  | minus hx ih => exact fun n => .minus (minus hx).shortens (ih (n + 1))
  | not hx ih => exact fun n => .not (Reads.not hx).shortens (ih (n + 1))
  | plain hminus hnot hx hstop ih => exact fun n => .plain hminus hnot (ih n) hstop
  | index1 hminus hnot hx hi ihx ihi =>
    exact fun n => .index1 (index1 hminus hnot hx hi).shortens hminus hnot (ihx n) ihi
  | index2 hminus hnot hx hi hj ihx ihi ihj =>
    exact fun n => .index2 (index2 hminus hnot hx hi hj).shortens hminus hnot (ihx n) ihi ihj
  | leaf ht => exact fun n => .leaf ht
  | paren ht hx ih => exact fun n => .paren (paren ht hx).shortens ht (ih (n + 1))
  | bar ht hx ih => exact fun n => .bar (bar ht hx).shortens ht (ih (n + 1))
  | vector ht hrow hx ih =>
    exact fun n => .vector (vector ht hrow hx).shortens ht hrow (ih (n + 1))
  | matrix ht hx hlater ihx ihlater =>
    have hrow := hx.lead_row
    exact fun n => .matrix (matrix ht hx hlater).shortens ht hrow (ihx (n + 1)) ihlater
  | set ht hx hlater ihx ihlater =>
    exact fun n => .set (set ht hx hlater).shortens ht (ihx (n + 1)) ihlater
  | callNone ht hdims hcount ihdims =>
    exact fun n => .callNone (callNone ht hdims hcount).shortens ht (ihdims (n + 1)) hcount
  | callSome ht hdims hsome hx hlater hcount ihdims ihx ihlater =>
    have hshort := (callSome ht hdims hsome hx hlater hcount).shortens
    exact fun n => .callSome hshort ht (ihdims (n + 1)) hsome ihx ihlater hcount
  | apply ht hangle hparen hone hx ih =>
    have hshort := (apply ht hangle hparen hone hx).shortens
    exact fun n => .apply hshort ht (.noDimensions hangle) hparen hone ih
  | row hx ih => exact fun n => .row (row hx).shortens (ih (n + 1))
  | empty => exact fun n => .empty
  | elements hclose hx hlater ihx ihlater =>
    exact fun n => .elements (elements hclose hx hlater).shortens hclose (ihx n) ihlater
  | stop hjoint => exact fun n => .stop hjoint
  | step hjoint hx hlater ihx ihlater =>
    exact fun n => .step (step hjoint hx hlater).shortens hjoint ihx ihlater
  | noDimensions hangle => exact fun n => .noDimensions hangle
  | dimensions hx hlater ihx ihlater =>
    exact fun n => .someDimensions (dimensions hx hlater).shortens (ihx (n + 1)) ihlater

namespace Grammar

/-- The reader accepts a token stream exactly if a whole term can be read from it
and the end mark alone is left. -/
theorem read_eq_ok_iff (ctx : Context) (tokens : List Token) (x : Term) :
    read ctx .terms tokens () = .ok x () ↔
      Reads ctx (.one .term) tokens x [Token.endMark] := by
  change Yields (read ctx .terms tokens) x ↔ _
  unfold read
  constructor
  · intro h
    obtain ⟨⟨y, c, hc⟩, hy, h⟩ := Yields.bind_iff.1 h
    dsimp only at h
    split at h
    · next hrest =>
      obtain rfl := Yields.pure_iff.1 h
      exact hrest ▸ (inverts ctx).1 .term (Cursor.start tokens) _ hy
    · exact (Yields.throw_iff.1 h).elim
  · intro h
    obtain ⟨m, ⟨hm, hx⟩, _⟩ := h.moves 0
    exact .bind hx (.of_pos rfl (.pure _))

end Grammar

end TermReader
