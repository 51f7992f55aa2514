import TermReader.Proofs.Equations

/-!
Reading as movement over the tokens. A run only moves forward, it fails where it stands,
and what it does up to a position depends on the tokens up to that position alone. Such
runs are composed by the rules below, one for each way in which the reader goes on.
-/

namespace TermReader

/-- The symbol that is missing where reading fails for a reason. -/
def Reason.symbol? : Reason → Option Token
  | expectedParen => some ")"
  | expectedBracket => some "]"
  | expectedOpenBracket => some "["
  | expectedBrace => some "\x7d"
  | expectedAngle => some ">"
  | expectedBar => some "|"
  | expectedCall | wrongArgumentCount | unexpectedToken | unexpectedEnd | trailingTokens => none

theorem Reason.ne_endMark {reason : Reason} {symbol : Token} (h : reason.symbol? = some symbol) :
    symbol ≠ Token.endMark := by
  rintro rfl
  revert h
  cases reason <;> decide

namespace Cursor

/-- Reading may step over the token at the cursor. The end mark is stepped over only
where it is itself a name that opens a phrase. -/
def Passable (ctx : Context) (c : Cursor) : Prop :=
  c.rest ≠ [] ∧ (c.lookahead = Token.endMark → ctx.opening Token.endMark ≠ .none)

/-- The cursors that come after a cursor. -/
inductive Reaches (ctx : Context) (c : Cursor) : Cursor → Prop
  | refl : Reaches ctx c c
  | next {d} (h : Reaches ctx c d) (hpass : d.Passable ctx) : Reaches ctx c d.next

/-- Where and why reading from a cursor `c` fails. A wrong number of arguments is noticed behind
the bracket that closes them. What is described in detail is always a function. -/
inductive Fails (ctx : Context) (c : Cursor) : Cursor → Failure → Prop
  | missing {d : Cursor} {reason symbol} (hreason : reason.symbol? = some symbol)
      (h : d.lookahead ≠ symbol) : Fails ctx c d (d.reject reason none)
  | ended {d : Cursor} (h : d.rest = []) : Fails ctx c d (d.reject .unexpectedEnd none)
  | unopened {d : Cursor} (h : ctx.opening d.lookahead = .none) :
      Fails ctx c d (d.reject
        (if d.lookahead = Token.endMark then .unexpectedEnd else .unexpectedToken) none)
  | uncalled {d : Cursor} {name} (hname : ctx.isFunction name = true) (h : d.lookahead ≠ "(") :
      Fails ctx c d (d.reject .expectedCall (some ("function " ++ name)))
  | miscounted {d : Cursor} {name count} (hname : ctx.isFunction name = true)
      (hreach : c.Reaches ctx d) (hclose : d.lookahead = ")") (hcount : count ∉ ctx.arities name) :
      Fails ctx c d.next (d.next.reject .wrongArgumentCount (some (callDetail name count)))
  | excess {d : Cursor} {digits} (h : ctx.opening d.lookahead = .excess digits) :
      Fails ctx c d (.excessDigits digits)

variable {ctx : Context} {c d e : Cursor}

theorem passable_of_symbol {symbol : Token} (h : c.lookahead = symbol)
    (hsymbol : symbol ≠ Token.endMark) : c.Passable ctx := by
  have hne : c.lookahead ≠ Token.endMark := h ▸ hsymbol
  exact ⟨c.rest_ne_nil hne, fun hend => absurd hend hne⟩

theorem passable_of_opening (hend : c.rest ≠ []) (h : ctx.opening c.lookahead ≠ .none) :
    c.Passable ctx :=
  ⟨hend, fun hmark => hmark ▸ h⟩

theorem Reaches.trans (h : c.Reaches ctx d) (h' : d.Reaches ctx e) : c.Reaches ctx e := by
  induction h' with
  | refl => exact h
  | next _ hpass ih => exact .next ih hpass

theorem Reaches.position_le (h : c.Reaches ctx d) : c.position ≤ d.position := by
  induction h with
  | refl => exact Nat.le_refl _
  | next _ _ ih => exact Nat.le_succ_of_le ih

/-- What fails from a cursor fails from every cursor before it. -/
theorem Fails.from {failure : Failure} (h : d.Fails ctx e failure) (hreach : c.Reaches ctx d) :
    c.Fails ctx e failure := by
  cases h with
  | missing hreason h => exact .missing hreason h
  | ended h => exact .ended h
  | unopened h => exact .unopened h
  | uncalled hname h => exact .uncalled hname h
  | miscounted hname hreach' hclose hcount =>
    exact .miscounted hname (hreach.trans hreach') hclose hcount
  | excess h => exact .excess h

/-- A rejection names the place where reading fails. -/
theorem Fails.position_eq {r : Rejection} (h : c.Fails ctx d (.rejected r)) :
    r.position = d.position := by
  generalize hr : Failure.rejected r = failure at h
  cases h with
  | excess => cases hr
  | _ =>
    cases hr
    rfl

/-- Two cursors stand at the same position and see the same tokens up to another. -/
def Alike (q : Nat) (c c' : Cursor) : Prop :=
  c'.position = c.position ∧ ∀ i, c.position + i ≤ q → c'.rest[i]? = c.rest[i]?

namespace Alike

variable {q : Nat} {c' : Cursor}

theorem refl (q : Nat) (c : Cursor) : c.Alike q c := ⟨rfl, fun _ _ => rfl⟩

theorem next (h : c.Alike q c') : c.next.Alike q c'.next := by
  refine ⟨congrArg (· + 1) h.1, fun i hi => ?_⟩
  have hi' : c.position + (i + 1) ≤ q := by
    simp only [Cursor.next] at hi
    omega
  simpa [Cursor.next] using h.2 (i + 1) hi'

theorem head?_eq (h : c.Alike q c') (hq : c.position ≤ q) : c'.rest.head? = c.rest.head? := by
  simpa only [List.head?_eq_getElem?] using h.2 0 hq

theorem lookahead_eq (h : c.Alike q c') (hq : c.position ≤ q) : c'.lookahead = c.lookahead := by
  simp only [lookahead, List.headD_eq_head?_getD, h.head?_eq hq]

theorem rest_eq_nil_iff (h : c.Alike q c') (hq : c.position ≤ q) :
    c'.rest = [] ↔ c.rest = [] := by
  rw [← List.head?_eq_none_iff, h.head?_eq hq, List.head?_eq_none_iff]

theorem reject_eq (h : c.Alike q c') (hq : c.position ≤ q) (reason : Reason)
    (detail : Option String) : c'.reject reason detail = c.reject reason detail := by
  simp only [reject, h.1, h.lookahead_eq hq]

end Alike

end Cursor

variable {σ α β : Type}

/-- Where a run from a cursor ends: behind the value, or where it fails. -/
inductive Ends (ctx : Context) (c d : Cursor) : EStateM.Result Failure σ (α × Cursor) → Prop
  | ok {x s} (hreach : c.Reaches ctx d) : Ends ctx c d (.ok (x, d) s)
  | error {e s} (hreach : c.Reaches ctx d) (hfail : c.Fails ctx d e) : Ends ctx c d (.error e s)

/-- A run repeats another up to a position: the failure is the same, or the value and
what can be seen behind it. The state is the same in either case. -/
inductive Repeats (q : Nat) : EStateM.Result Failure σ (α × Cursor) →
    EStateM.Result Failure σ (α × Cursor) → Prop
  | ok {x d d' s} (h : d.Alike q d') : Repeats q (.ok (x, d) s) (.ok (x, d') s)
  | error {e s} : Repeats q (.error e s) (.error e s)

/-- Reading from a cursor moves forward, and a run that ends at a position or before it
is repeated wherever the tokens up to that position are the same. -/
def LocalAt (ctx : Context) (m : Cursor → Reading σ (α × Cursor)) (c : Cursor) : Prop :=
  ∀ q c', c.Alike q c' → ∀ s, ∃ d, Ends ctx c d (m c s) ∧
    (d.position ≤ q → Repeats q (m c s) (m c' s))

section Ends

variable {ctx : Context} {c c₁ d : Cursor} {r : EStateM.Result Failure σ (α × Cursor)}

theorem Ends.reaches (h : Ends ctx c d r) : c.Reaches ctx d := by
  cases h with
  | ok hreach => exact hreach
  | error hreach => exact hreach

theorem Ends.reaches_fails {e : Failure} {s : σ} (h : Ends (α := α) ctx c d (.error e s)) :
    c.Reaches ctx d ∧ c.Fails ctx d e := by
  cases h with
  | error hreach hfail => exact ⟨hreach, hfail⟩

theorem Ends.from (h : Ends ctx c₁ d r) (hreach : c.Reaches ctx c₁) : Ends ctx c d r := by
  cases h with
  | ok h => exact .ok (hreach.trans h)
  | error h hfail => exact .error (hreach.trans h) (hfail.from hreach)

end Ends

section Repeats

variable {q : Nat} {s : σ} {r : EStateM.Result Failure σ (α × Cursor)}

theorem Repeats.eq_error {e : Failure} (h : Repeats q (.error e s) r) : r = .error e s := by
  cases h
  rfl

theorem Repeats.exists_ok {x : α} {d : Cursor} (h : Repeats q (.ok (x, d) s) r) :
    ∃ d', r = .ok (x, d') s ∧ d.Alike q d' := by
  cases h with
  | ok h => exact ⟨_, rfl, h⟩

end Repeats

namespace Reading

variable {n : Nat} {m : Reading σ (Read n α)} {s s' : σ}

theorem bare_of_ok {r : Read n α} (h : m s = .ok r s') : m.bare s = .ok (r.value, r.next) s' := by
  simp only [bare, Bind.bind, EStateM.bind, h]
  rfl

theorem bare_of_error {e : Failure} (h : m s = .error e s') : m.bare s = .error e s' := by
  simp only [bare, Bind.bind, EStateM.bind, h]

theorem andThen_of_bare_ok {f : α → Cursor → Reading σ β} {x : α} {c : Cursor}
    (h : m.bare s = .ok (x, c) s') : m.andThen f s = f x c s' := by
  cases hm : m s with
  | ok r s₁ =>
    rw [bare_of_ok hm] at h
    cases h
    simp only [andThen, Bind.bind, EStateM.bind, hm]
  | error e s₁ =>
    rw [bare_of_error hm] at h
    cases h

theorem andThen_of_bare_error {f : α → Cursor → Reading σ β} {e : Failure}
    (h : m.bare s = .error e s') : m.andThen f s = .error e s' := by
  cases hm : m s with
  | ok r s₁ =>
    rw [bare_of_ok hm] at h
    cases h
  | error e s₁ =>
    rw [bare_of_error hm] at h
    cases h
    simp only [andThen, Bind.bind, EStateM.bind, hm]

/-- A computation that does not fail, as the constructions of a builder. -/
def Total (m : Reading σ α) : Prop := ∀ s, ∃ x s', m s = .ok x s'

namespace Total

variable {τ : Type} {m : Reading σ α} {f : α → Reading σ β}

theorem pure (x : α) : (Pure.pure x : Reading σ α).Total := fun s => ⟨x, s, rfl⟩

theorem bind_of_ok {x : α} {s s' : σ} (h : m s = .ok x s') : (m >>= f) s = f x s' := by
  simp only [Bind.bind, EStateM.bind, h]

theorem bind (hm : m.Total) (hf : ∀ x, (f x).Total) : (m >>= f).Total := by
  intro s
  obtain ⟨x, s₁, h⟩ := hm s
  rw [bind_of_ok h]
  exact hf x s₁

theorem mapM {g : β → Reading σ α} (hg : ∀ y, (g y).Total) (l : List β) : (l.mapM g).Total := by
  induction l with
  | nil => exact pure []
  | cons y l ih =>
    rw [List.mapM_cons]
    exact (hg y).bind fun x => ih.bind fun xs => pure (x :: xs)

theorem foldlM {g : α → β → Reading σ α} (hg : ∀ x y, (g x y).Total) (l : List β) (x : α) :
    (l.foldlM g x).Total := by
  induction l generalizing x with
  | nil => exact pure x
  | cons y l ih =>
    rw [List.foldlM_cons]
    exact (hg x y).bind ih

variable (b : Builder σ τ)

theorem makeLeaf (l : Leaf) : (b.makeLeaf l).Total := fun _ => ⟨_, _, rfl⟩

theorem makeNode (op : String) (args dims : List τ) : (b.makeNode op args dims).Total :=
  fun _ => ⟨_, _, rfl⟩

theorem makeSum (first : τ) (later : List (Token × τ)) : (b.makeSum first later).Total := by
  rw [Builder.makeSum_eq]
  split
  · exact pure first
  split
  · exact makeNode b _ _ _
  · refine (mapM (fun y => ?_) later).bind fun xs => makeNode b _ _ _
    split
    · exact makeNode b _ _ _
    · exact pure y.2

theorem makeProduct (first : τ) (later : List (Token × τ)) :
    (b.makeProduct first later).Total := by
  unfold Builder.makeProduct
  split
  · exact pure first
  split
  · exact foldlM (fun x y => makeNode b _ _ _) later first
  · exact makeNode b _ _ _

end Total

end Reading

namespace LocalAt

variable {ctx : Context} {m m' : Cursor → Reading σ (α × Cursor)} {c : Cursor}

-- Each rule says what a run does at every cursor, for the same run reads both inputs.

/-- Where reading starts beyond the position nothing has to be repeated. -/
theorem of_le (h : ∀ q c', c.position ≤ q → c.Alike q c' → ∀ s, ∃ d, Ends ctx c d (m c s) ∧
    (d.position ≤ q → Repeats q (m c s) (m c' s))) : LocalAt ctx m c := by
  intro q c' hc s
  by_cases hq : c.position ≤ q
  · exact h q c' hq hc s
  · obtain ⟨d, hends, -⟩ := h c.position c (Nat.le_refl _) (.refl _ c) s
    exact ⟨d, hends, fun hd => absurd (Nat.le_trans hends.reaches.position_le hd) hq⟩

/-- What reading does at a cursor may depend on the token there. -/
theorem congr (hm : LocalAt ctx m' c) (h : ∀ d, d.lookahead = c.lookahead → m d = m' d) :
    LocalAt ctx m c := by
  refine of_le fun q c' hq hc s => ?_
  rw [h c rfl, h c' (hc.lookahead_eq hq)]
  exact hm q c' hc s

/-- Reading on behind the token at the cursor. -/
theorem next (hm : LocalAt ctx m c.next) (hpass : c.Passable ctx) :
    LocalAt ctx (fun d => m d.next) c := by
  intro q c' hc s
  obtain ⟨d, hends, hrepeats⟩ := hm q c'.next hc.next s
  exact ⟨d, hends.from (.next .refl hpass), hrepeats⟩

/-- Reading on behind the joint of a series. -/
theorem past {k : Series} {j : Joint} (hm : LocalAt ctx m (c.past j))
    (hjoint : k.joint? c.lookahead = some j) : LocalAt ctx (fun d => m (d.past j)) c := by
  cases j with
  | implied => exact hm
  | written op =>
    have hne : c.lookahead ≠ Token.endMark := by
      intro hend
      rw [hend, k.joint?_endMark] at hjoint
      cases hjoint
    exact LocalAt.next hm (Cursor.passable_of_symbol rfl hne)

theorem done (x : α) : LocalAt ctx (fun d => (pure (x, d) : Reading σ (α × Cursor))) c :=
  fun _ _ hc _ => ⟨c, .ok .refl, fun _ => .ok hc⟩

theorem throw {e : Failure} (h : c.Fails ctx c e) :
    LocalAt ctx (fun _ => (MonadExcept.throw e : Reading σ (α × Cursor))) c :=
  fun _ _ _ _ => ⟨c, .error .refl h, fun _ => .error⟩

theorem reject {reason : Reason} {detail : Option String}
    (h : c.Fails ctx c (c.reject reason detail)) :
    LocalAt ctx
      (fun d => (MonadExcept.throw (d.reject reason detail) : Reading σ (α × Cursor))) c := by
  refine of_le fun q c' hq hc s => ⟨c, .error .refl h, fun _ => ?_⟩
  rw [hc.reject_eq hq]
  exact .error

/-- A rejection of the token behind the cursor. -/
theorem rejectNext {reason : Reason} {detail : Option String} (hpass : c.Passable ctx)
    (h : c.Fails ctx c.next (c.next.reject reason detail)) :
    LocalAt ctx
      (fun d => (MonadExcept.throw (d.next.reject reason detail) : Reading σ (α × Cursor))) c := by
  intro q c' hc s
  refine ⟨c.next, .error (.next .refl hpass) h, fun hq => ?_⟩
  dsimp only
  rw [hc.next.reject_eq hq]
  exact .error

theorem ifSymbol {symbol : Token} (hm : c.lookahead = symbol → LocalAt ctx m c)
    (hm' : c.lookahead ≠ symbol → LocalAt ctx m' c) :
    LocalAt ctx (fun d => if d.lookahead = symbol then m d else m' d) c := by
  by_cases h : c.lookahead = symbol
  · exact (hm h).congr fun d hd => if_pos (hd.trans h)
  · exact (hm' h).congr fun d hd => if_neg (hd ▸ h)

theorem ifOperator {symbols : List Token} (hm : c.lookahead ∈ symbols → LocalAt ctx m c)
    (hm' : LocalAt ctx m' c) :
    LocalAt ctx (fun d => if d.lookahead ∈ symbols then m d else m' d) c := by
  by_cases h : c.lookahead ∈ symbols
  · exact (hm h).congr fun d hd => if_pos (hd ▸ h)
  · exact hm'.congr fun d hd => if_neg (hd ▸ h)

theorem ifEnded (hm : c.rest = [] → LocalAt ctx m c) (hm' : c.rest ≠ [] → LocalAt ctx m' c) :
    LocalAt ctx (fun d => if d.rest = [] then m d else m' d) c := by
  refine of_le fun q c' hq hc s => ?_
  have hiff := hc.rest_eq_nil_iff hq
  by_cases h : c.rest = []
  · rw [if_pos h, if_pos (hiff.2 h)]
    exact hm h q c' hc s
  · rw [if_neg h, if_neg (mt hiff.1 h)]
    exact hm' h q c' hc s

/-- Reading on behind a phrase, from wherever the phrase has ended. -/
theorem andThen {n : Cursor → Nat} {f : β → Cursor → Reading σ (α × Cursor)}
    {p : (d : Cursor) → Reading σ (Read (n d) β)} (hp : LocalAt ctx (fun d => (p d).bare) c)
    (hf : ∀ x d, d.size < n c → LocalAt ctx (f x) d) :
    LocalAt ctx (fun d => (p d).andThen f) c := by
  intro q c' hc s
  obtain ⟨d, hends, hrepeats⟩ := hp q c' hc s
  dsimp only at hends hrepeats ⊢
  cases h : p c s with
  | ok r s₁ =>
    have hbare := Reading.bare_of_ok h
    rw [hbare] at hends hrepeats
    rw [Reading.andThen_of_bare_ok hbare]
    obtain ⟨hreach⟩ := hends
    by_cases hq : r.next.position ≤ q
    · obtain ⟨d', hrest, hd'⟩ := (hrepeats hq).exists_ok
      rw [Reading.andThen_of_bare_ok hrest]
      obtain ⟨e, hends, hrepeats⟩ := hf r.value r.next r.size_lt q d' hd' s₁
      exact ⟨e, hends.from hreach, hrepeats⟩
    · obtain ⟨e, hends, -⟩ := hf r.value r.next r.size_lt q r.next (.refl q _) s₁
      exact ⟨e, hends.from hreach, fun he => absurd (Nat.le_trans hends.reaches.position_le he) hq⟩
  | error e s₁ =>
    have hbare := Reading.bare_of_error h
    rw [hbare] at hends hrepeats
    rw [Reading.andThen_of_bare_error hbare]
    obtain ⟨hreach, hfail⟩ := hends.reaches_fails
    refine ⟨d, .error hreach hfail, fun hd => ?_⟩
    rw [Reading.andThen_of_bare_error (hrepeats hd).eq_error]
    exact .error

theorem built {mb : Reading σ β} {f : β → Cursor → Reading σ (α × Cursor)} (hmb : mb.Total)
    (hf : ∀ x, LocalAt ctx (f x) c) : LocalAt ctx (fun d => mb >>= fun x => f x d) c := by
  intro q c' hc s
  obtain ⟨x, s₁, h⟩ := hmb s
  dsimp only
  rw [Reading.Total.bind_of_ok h, Reading.Total.bind_of_ok h]
  exact hf x q c' hc s₁

theorem expect {symbol : Token} {reason : Reason} (hreason : reason.symbol? = some symbol)
    (hm : c.lookahead = symbol → LocalAt ctx m c) :
    LocalAt ctx (fun d => d.expect symbol reason >>= fun _ => m d) c := by
  have heq (d : Cursor) : (d.expect symbol reason >>= fun _ => m d) =
      if d.lookahead = symbol then m d else MonadExcept.throw (d.reject reason none) := by
    unfold Cursor.expect
    split
    · exact pure_bind _ _
    · rfl
  simp only [heq]
  exact ifSymbol hm fun h => reject (.missing hreason h)

variable {τ : Type} {b : Builder σ τ}

/-- What has been built is the value, and reading goes on where it is. -/
theorem value {mb : Reading σ α} (hmb : mb.Total) :
    LocalAt ctx (fun d => mb >>= fun x => pure (x, d)) c :=
  built hmb done

/-- A value that ends with the token at the cursor. -/
theorem passed (hpass : c.Passable ctx) (x : α) :
    LocalAt ctx (fun d => (pure (x, d.next) : Reading σ (α × Cursor))) c :=
  (done x).next hpass

theorem closed {symbol : Token} {reason : Reason} {mb : Reading σ α}
    (hreason : reason.symbol? = some symbol) (hmb : mb.Total) :
    LocalAt ctx (Grammar.closed symbol reason mb) c := by
  refine expect hreason fun h => built hmb fun x => passed ?_ x
  exact Cursor.passable_of_symbol h (Reason.ne_endMark hreason)

/-- A phrase and the symbol that closes it, behind which a value is made. -/
theorem delimited (symbol : Token) (reason : Reason) {n : Cursor → Nat}
    {p : (d : Cursor) → Reading σ (Read (n d) β)} {f : β → Reading σ α}
    (hp : LocalAt ctx (fun d => (p d).bare) c) (hreason : reason.symbol? = some symbol)
    (hf : ∀ x, (f x).Total) :
    LocalAt ctx (fun d => (p d).andThen fun x => Grammar.closed symbol reason (f x)) c :=
  .andThen hp fun x _ _ => .closed hreason (hf x)

theorem closedIndex (op : String) (args : List τ) :
    LocalAt ctx (Grammar.closedIndex b op args) c := by
  refine built (.makeNode b _ _ _) fun x => expect rfl fun h => passed ?_ x
  exact Cursor.passable_of_symbol h (by decide)

theorem counted {name : Token} (hname : ctx.isFunction name = true) (dims args : List τ) :
    LocalAt ctx (Grammar.counted ctx b name dims args) c := by
  refine expect rfl fun h => ?_
  have hpass : c.Passable ctx := Cursor.passable_of_symbol h (by decide)
  split
  · exact built (.makeNode b _ _ _) (passed hpass)
  · next hcount => exact rejectNext hpass (.miscounted hname .refl h hcount)

end LocalAt

end TermReader
