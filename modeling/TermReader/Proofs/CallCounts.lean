import TermReader.Proofs.Lookahead
import TermReader.Proofs.Surroundings
import TermReader.Proofs.ReadBack

/-!
Calls with any number of arguments. A function takes as many arguments as its context allows,
except that a function which may be called without arguments is never given any: its argument
list is not read but has to be empty. Whatever else is written in the brackets of a call is
rejected, and the rejections are given here. A function of one argument may also stand in front
of an operand, which makes the same call.
-/

namespace TermReader

/-- A call with its arguments, at the end of the input. -/
def Token.call (f : Token) (us : List (List Token)) : List Token :=
  f :: "(" :: (separated "," us ++ [")", Token.endMark])

namespace Grammar

section Failure

variable {σ τ : Type} {ctx : Context} {b : Builder σ τ} {c : Cursor} {s s' : σ} {e : Failure}

/-- Where a phrase fails without a sign in front, a looser phrase fails in the same way. -/
theorem bare_eq_error_of_under {p q : Phrase} (h : p.Under q) (hminus : c.lookahead ≠ "-")
    (hnot : c.lookahead ≠ "!") (hp : (phrase ctx b p c).bare s = .error e s') :
    (phrase ctx b q c).bare s = .error e s' := by
  have hseries {k : Series} (hk : (phrase ctx b k.operand c).bare s = .error e s') :
      (series ctx b k c).bare s = .error e s' := by
    rw [bare_series]
    exact Reading.andThen_of_bare_error hk
  induction h with
  | refl => exact hp
  | tier _ ih =>
    rw [bare_tier]
    exact Reading.andThen_of_bare_error ih
  | sum _ ih =>
    rw [bare_sum]
    exact Reading.andThen_of_bare_error (hseries (k := .summands) ih)
  | product _ ih =>
    rw [bare_product]
    exact Reading.andThen_of_bare_error (hseries (k := .factors) ih)
  | power _ ih =>
    rw [bare_power]
    exact Reading.andThen_of_bare_error ih
  | unary _ ih =>
    rw [bare_unary, if_neg hminus, if_neg hnot]
    exact Reading.andThen_of_bare_error ih

theorem read_eq_error_of_primary {tokens : List Token} (hminus : lead tokens ≠ "-")
    (hnot : lead tokens ≠ "!")
    (h : (phrase ctx b .primary (.start tokens)).bare s = .error e s') :
    read ctx b tokens s = .error e s' := by
  rw [read_eq]
  exact Reading.andThen_of_bare_error (bare_eq_error_of_under .primary_term hminus hnot h)

/-- A call without dimensions goes on at its opening bracket. -/
theorem bare_primary_of_call {f : Token} {n : Nat} {w : List Token} (hf : ctx.opening f = .call) :
    (phrase ctx b .primary ⟨n, f :: "(" :: w⟩).bare s =
      applied ctx b f [] ⟨n + 1, "(" :: w⟩ s := by
  have hdims : (dimensions ctx b ⟨n + 1, "(" :: w⟩).bare s = .ok ([], ⟨n + 1, "(" :: w⟩) s := by
    rw [bare_dimensions]
    rfl
  rw [bare_primary, if_neg (List.cons_ne_nil _ _)]
  simp only [Cursor.lookahead, List.headD_cons, hf]
  exact Reading.andThen_of_bare_ok hdims

variable (f : Token) (dims args : List τ) (n : Nat) (w : List Token)

/-- Behind its opening bracket a call reads arguments, unless the function may do without. -/
theorem applied_paren :
    applied ctx b f dims ⟨n, "(" :: w⟩ =
      if 0 ∈ ctx.arities f then counted ctx b f dims [] ⟨n + 1, w⟩
      else (arguments ctx b ⟨n + 1, w⟩).andThen (counted ctx b f dims) := by
  rw [applied]
  exact if_pos rfl

theorem counted_of_ne (hclose : lead w ≠ ")") :
    counted ctx b f dims args ⟨n, w⟩ s =
      .error (.rejected ⟨.expectedParen, lead w, n, none⟩) s := by
  have hexpect : (⟨n, w⟩ : Cursor).expect (σ := σ) ")" .expectedParen =
      throw (.rejected ⟨.expectedParen, lead w, n, none⟩) := if_neg hclose
  rw [counted, hexpect]
  rfl

theorem counted_of_notMem (hcount : args.length ∉ ctx.arities f) :
    counted ctx b f dims args ⟨n, ")" :: w⟩ s =
      .error (.rejected ⟨.wrongArgumentCount, lead w, n + 1,
        some (callDetail f args.length)⟩) s := by
  have hexpect : (⟨n, ")" :: w⟩ : Cursor).expect (σ := σ) ")" .expectedParen = pure () :=
    if_pos rfl
  rw [counted, hexpect, pure_bind, if_neg hcount]
  rfl

end Failure

section Counts

variable {ctx : Context} {f : Token} {u : List Token} {us : List (List Token)} {x : Term}
  {xs : List Term}

/-- The arguments of a call are read up to the token that closes the call. -/
theorem bare_arguments_of_readable (hx : Readable ctx .term u x)
    (h : List.Forall₂ (Readable ctx .term) us xs) (n : Nat) (rest : List Token) :
    (arguments ctx .terms ⟨n, separated "," (u :: us) ++ ")" :: rest⟩).bare () =
      .ok (x :: xs, ⟨n + (separated "," (u :: us)).length, ")" :: rest⟩) () := by
  obtain ⟨ts, hfirst, hlater⟩ := Reads.list_of_readable (k := .terms) (b := ")") rfl hx h
    (.of_mem (by decide)) (by decide) rest
  obtain ⟨m, hm, hseries, hlength⟩ := Item.Moves.series (hfirst.moves n) hlater.moves
  obtain rfl : m = n + (separated "," (u :: us)).length := by
    rw [List.length_append] at hlength
    omega
  rw [bare_arguments, Reading.andThen_of_bare_ok (Reading.bare_of_ok hseries)]
  exact congrArg (fun ys => EStateM.Result.ok (ys, _) ()) (Term.operands_map x xs ",")

/-- Without arguments there is nothing to read as one. -/
theorem bare_arguments_close (hctx : ctx.WellNamed) (n : Nat) (rest : List Token) :
    (arguments ctx .terms ⟨n, ")" :: rest⟩).bare () =
      .error (.rejected ⟨.unexpectedToken, ")", n, none⟩) () := by
  have hclose : ctx.opening ")" = .none := hctx.opening_of_symbolic (by decide)
  have hprimary : (phrase ctx .terms .primary ⟨n, ")" :: rest⟩).bare () =
      .error (.rejected ⟨.unexpectedToken, ")", n, none⟩) () := by
    rw [bare_primary, if_neg (List.cons_ne_nil _ _)]
    simp only [Cursor.lookahead, List.headD_cons, hclose]
    rfl
  have hseries : (series ctx .terms .terms ⟨n, ")" :: rest⟩).bare () =
      .error (.rejected ⟨.unexpectedToken, ")", n, none⟩) () := by
    rw [bare_series]
    refine Reading.andThen_of_bare_error (bare_eq_error_of_under .primary_term ?_ ?_ hprimary)
    · exact (by decide : ")" ≠ "-")
    · exact (by decide : ")" ≠ "!")
  rw [bare_arguments]
  exact Reading.andThen_of_bare_error hseries

/-- A call fails as its brackets do. -/
theorem read_eq_error_of_applied (hctx : ctx.WellNamed) (hf : ctx.opening f = .call)
    {w : List Token} {e : Failure}
    (h : applied ctx .terms f [] ⟨1, "(" :: w⟩ () = .error e ()) :
    read ctx .terms (f :: "(" :: w) () = .error e () := by
  obtain ⟨hminus, hnot⟩ := hctx.ne_sign (t := f) (by simp [hf])
  exact read_eq_error_of_primary hminus hnot ((bare_primary_of_call hf).trans h)

/-- A function that may be called without arguments is not given any. -/
theorem read_call_nullary (hctx : ctx.WellNamed) (hf : ctx.opening f = .call)
    (hzero : 0 ∈ ctx.arities f) (hx : Readable ctx .term u x) (us : List (List Token)) :
    read ctx .terms (Token.call f (u :: us)) () =
      .error (.rejected ⟨.expectedParen, lead u, 2, none⟩) () := by
  have hread := hx [Token.endMark] (.of_mem (by decide))
  have hne : u ≠ [] := hread.prefix_ne_nil
  have hclose : lead u ≠ ")" := by
    have hlead := hread.lead_ne (hctx.opening_of_symbolic (by decide)) (by decide) rfl
      (by decide : Phrase.term ≠ .elements) (s := ")")
    rwa [lead_append hne] at hlead
  refine read_eq_error_of_applied hctx hf ?_
  have hlead : lead (separated "," (u :: us) ++ [")", Token.endMark]) = lead u := by
    rw [separated, List.append_assoc, lead_append hne]
  rw [applied_paren, if_pos hzero, ← hlead]
  exact counted_of_ne f [] [] 2 _ (hlead ▸ hclose)

theorem read_call_empty (hctx : ctx.WellNamed) (hf : ctx.opening f = .call)
    (hzero : 0 ∉ ctx.arities f) :
    read ctx .terms (Token.call f []) () =
      .error (.rejected ⟨.unexpectedToken, ")", 2, none⟩) () := by
  refine read_eq_error_of_applied hctx hf ?_
  rw [applied_paren, if_neg hzero]
  exact Reading.andThen_of_bare_error (bare_arguments_close hctx 2 _)

/-- A call with a number of arguments that the function does not take is rejected behind its
closing bracket. -/
theorem read_call_count (hctx : ctx.WellNamed) (hf : ctx.opening f = .call)
    (hzero : 0 ∉ ctx.arities f) (hx : Readable ctx .term u x)
    (h : List.Forall₂ (Readable ctx .term) us xs) (hcount : (u :: us).length ∉ ctx.arities f) :
    read ctx .terms (Token.call f (u :: us)) () =
      .error (.rejected ⟨.wrongArgumentCount, Token.endMark,
        2 + (separated "," (u :: us)).length + 1, some (callDetail f (u :: us).length)⟩) () := by
  have hlength : (x :: xs).length = (u :: us).length := by
    rw [List.length_cons, List.length_cons, h.length_eq]
  refine read_eq_error_of_applied hctx hf ?_
  rw [applied_paren, if_neg hzero,
    Reading.andThen_of_bare_ok (bare_arguments_of_readable hx h 2 _), ← hlength]
  exact counted_of_notMem f [] (x :: xs) _ _ (hlength ▸ hcount)

/-- A call with a number of arguments that the function takes. -/
theorem read_call_ok (hctx : ctx.WellNamed) (hf : ctx.opening f = .call)
    (h : List.Forall₂ (Readable ctx .term) us xs) (hcount : us.length ∈ ctx.arities f)
    (hnone : 0 ∈ ctx.arities f → us = []) :
    read ctx .terms (Token.call f us) () = .ok (.node f xs []) () := by
  have hdims (w : List Token) : Reads ctx .dimensions ("(" :: w) [] ("(" :: w) :=
    .noDimensions (by decide : "(" ≠ "<")
  have hend : Phrase.term.Stops (lead [Token.endMark]) := .of_mem (by decide)
  rw [read_eq_ok_iff]
  refine Reads.climb hctx ?_ .primary_term hend
  rw [h.length_eq] at hcount
  cases h with
  | nil => exact .callNone hf (hdims _) hcount
  | cons hx h =>
    have hsome : 0 ∉ ctx.arities f := fun hzero => List.cons_ne_nil _ _ (hnone hzero)
    obtain ⟨ts, hfirst, hlater⟩ := Reads.list_of_readable (k := .terms) (b := ")") rfl hx h
      (.of_mem (by decide)) (by decide) [Token.endMark]
    rw [← Term.operands_map _ _ ","] at hcount ⊢
    exact .callSome hf (hdims _) hsome hfirst hlater hcount

/-- Every declared argument count can be called, with any terms as arguments, and no other. The
exception are functions that may be called without arguments: they cannot be called with any. -/
theorem read_call (hctx : ctx.WellNamed) (hfun : ctx.isFunction f = true)
    (hname : f ∉ Token.constants) (hirr : ctx.isIrrational f = false)
    (h : List.Forall₂ (fun u x => read ctx .terms (u ++ [Token.endMark]) () = .ok x ()) us xs) :
    (us.length ∈ ctx.arities f → (0 ∈ ctx.arities f → us = []) →
      read ctx .terms (Token.call f us) () = .ok (.node f xs []) ()) ∧
    (us.length ∉ ctx.arities f ∨ 0 ∈ ctx.arities f ∧ us ≠ [] →
      ∃ r, read ctx .terms (Token.call f us) () = .error (.rejected r) ()) := by
  obtain ⟨n, hn⟩ := Context.isFunction_iff.1 hfun
  have hf : ctx.opening f = .call := Term.Printable.opening_of_call hctx hname hirr hn
  have hreadable : List.Forall₂ (Readable ctx .term) us xs := h.imp fun _ _ => readable_of_read
  refine ⟨read_call_ok hctx hf hreadable, fun hcount => ?_⟩
  by_cases hzero : 0 ∈ ctx.arities f
  · cases hreadable with
    | nil => exact absurd hcount (by simp [hzero])
    | cons hx => exact ⟨_, read_call_nullary hctx hf hzero hx _⟩
  · have hcount' := hcount.resolve_right fun h => hzero h.1
    cases hreadable with
    | nil => exact ⟨_, read_call_empty hctx hf hzero⟩
    | cons hx hxs => exact ⟨_, read_call_count hctx hf hzero hx hxs hcount'⟩

/-- A function of one or two arguments, called with two and with none. -/
theorem read_call_rand :
    read .standard .terms ["rand", "(", "x", "+", "y", ",", "2", ")", Token.endMark] () =
        .ok (.node "rand" [.node "+" [.leaf (.var "x"), .leaf (.var "y")] [], .leaf (.int 2)] [])
          () ∧
      ∃ r, read .standard .terms ["rand", "(", ")", Token.endMark] () =
        .error (.rejected r) () := by
  have hcall {us : List (List Token)} {xs : List Term}
      (h : List.Forall₂ (fun u x => read .standard .terms (u ++ [Token.endMark]) () = .ok x ())
        us xs) :=
    read_call (f := "rand") Context.wellNamed_standard (by decide) (by decide) (by decide) h
  have hsum : read .standard .terms (["x", "+", "y"] ++ [Token.endMark]) () =
      .ok (.node "+" [.leaf (.var "x"), .leaf (.var "y")] []) () := by
    cbv
  have htwo : read .standard .terms (["2"] ++ [Token.endMark]) () = .ok (.leaf (.int 2)) () := by
    cbv
  exact ⟨(hcall (.cons hsum (.cons htwo .nil))).1 (by decide) (by decide),
    (hcall .nil).2 (.inl (by decide))⟩

/-- A context in which a name may be called with no argument and with one. -/
def optionalArgument : Context where
  name := "Optional"
  names
    | .nullary | .unary => ["f"]
    | .binary | .ternary | .quaternary | .irrationals => []

/-- One argument is among the counts of the name, and is not accepted. -/
theorem optional_argument_rejected :
    optionalArgument.WellNamed ∧ 1 ∈ optionalArgument.arities "f" ∧
      read optionalArgument .terms ["x", Token.endMark] () = .ok (.leaf (.var "x")) () ∧
      read optionalArgument .terms ["f", "(", "x", ")", Token.endMark] () =
        .error (.rejected ⟨.expectedParen, "x", 2, none⟩) () := by
  refine ⟨?_, by decide, by cbv, by cbv⟩
  intro table
  cases table <;> decide

end Counts

section Application

variable {ctx : Context} {f : Token} {u : List Token} {x : Term}

/-- A function in front of an operand is applied to it. -/
theorem read_prefixed (hctx : ctx.WellNamed) (hf : ctx.opening f = .call)
    (hone : 1 ∈ ctx.arities f) (h : ReadsAlone ctx .unary u x) (hparen : lead u ≠ "(") :
    read ctx .terms (f :: (u ++ [Token.endMark])) () = .ok (.node f [x] []) () := by
  have hx := readsAlone_iff.1 h
  have hangle : lead (u ++ [Token.endMark]) ≠ "<" :=
    hx.lead_ne (hctx.opening_of_symbolic (by decide)) (by decide) rfl (by decide)
  have hparen' : lead (u ++ [Token.endMark]) ≠ "(" := by
    rwa [lead_append hx.prefix_ne_nil]
  have happly : Reads ctx (.one .primary) (f :: (u ++ [Token.endMark])) (.node f [x] [])
      [Token.endMark] := .apply hf hangle hparen' hone hx
  exact (read_eq_ok_iff ctx _ _).2 (happly.climb hctx .primary_term (.of_mem (by decide)))

/-- A function of one argument in front of an operand is the call with the operand in brackets,
unless the operand begins with a bracket, which would be that of a call. -/
theorem read_applied (hctx : ctx.WellNamed) (hone : 1 ∈ ctx.arities f) (hzero : 0 ∉ ctx.arities f)
    (hname : f ∉ Token.constants) (hirr : ctx.isIrrational f = false)
    (h : ReadsAlone ctx .unary u x) (hparen : lead u ≠ "(") :
    read ctx .terms (f :: (u ++ [Token.endMark])) () = .ok (.node f [x] []) () ∧
      read ctx .terms (f :: "(" :: (u ++ [")", Token.endMark])) () = .ok (.node f [x] []) () := by
  have hf : ctx.opening f = .call := Term.Printable.opening_of_call hctx hname hirr hone
  have hterm : Readable ctx .term u x := h.readable hctx .unary_term
  have hcall : read ctx .terms (Token.call f [u]) () = .ok (.node f [x] []) () :=
    read_call_ok hctx hf (.cons hterm .nil) hone fun h => absurd h hzero
  have htokens : Token.call f [u] = f :: "(" :: (u ++ [")", Token.endMark]) := by
    simp [Token.call, separated]
  exact ⟨read_prefixed hctx hf hone h hparen, htokens ▸ hcall⟩

/-- The operand is a negated product with an index and another function in it. -/
theorem read_applied_sin :
    let u := ["-", "2", "x", "[", "i", "]", "*", "cos", "y"]
    let x : Term := .node ".-" [.node "*" [.leaf (.int 2), .node "index1" [.leaf (.var "x"),
      .leaf (.complex (.int 0) (.int 1))] [], .node "cos" [.leaf (.var "y")] []] []] []
    ReadsAlone .standard .unary u x ∧
      read .standard .terms ("sin" :: (u ++ [Token.endMark])) () = .ok (.node "sin" [x] []) () ∧
      read .standard .terms ("sin" :: "(" :: (u ++ [")", Token.endMark])) () =
        .ok (.node "sin" [x] []) () := by
  have h : ReadsAlone .standard .unary ["-", "2", "x", "[", "i", "]", "*", "cos", "y"]
      (.node ".-" [.node "*" [.leaf (.int 2), .node "index1" [.leaf (.var "x"),
        .leaf (.complex (.int 0) (.int 1))] [], .node "cos" [.leaf (.var "y")] []] []] []) :=
    ⟨⟨9, [Token.endMark]⟩, by decide, by cbv, rfl⟩
  exact ⟨h, read_applied Context.wellNamed_standard (by decide) (by decide) (by decide) (by decide)
    h (by decide)⟩

end Application

end Grammar

end TermReader
