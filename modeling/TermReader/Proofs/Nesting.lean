import TermReader.Proofs.Numerals
import TermReader.Proofs.Replies

/-!
Room for brackets. Between a bracket and the next one within it there are fourteen calls, one for
each level of the grammar. So an expression in many brackets, which the reader reads as if it had
none, does not fit where each of them is left fewer calls.
-/

namespace TermReader

/-- So many brackets are ahead, the first of them in sight. -/
def TokenStream.Opens : Nat → TokenStream → Prop
  | 0, _ => True
  | k + 1, t => t.lookahead = "(" ∧ t.next.Opens k

theorem TokenStream.opens_next {tokens : List Token} {k p : Nat}
    (h : List.replicate k "(" <+: tokens.drop p) (t : Token) :
    (TokenStream.mk tokens p t).next.Opens k := by
  induction k generalizing p t with
  | zero => trivial
  | succ k ih =>
    obtain ⟨rest, hrest⟩ := h
    rw [List.replicate_succ, List.cons_append] at hrest
    have hget : tokens[p]? = some "(" := by rw [← List.head?_drop, ← hrest, List.head?_cons]
    have hnext : (TokenStream.mk tokens p t).next = ⟨tokens, p + 1, "("⟩ := by
      simp only [next, hget]
    rw [hnext]
    refine ⟨rfl, ih ⟨rest, ?_⟩ _⟩
    rw [← List.tail_drop, ← hrest, List.tail_cons]

namespace Descent

variable {σ α β : Type}

/-- The run is given up. -/
def GivesUp (r : Descent σ α) (s : TokenStream × σ) : Prop := ∃ s', r s = .error .exhausted s'

/-- What is given up at its start is given up. -/
theorem GivesUp.andThen {r : Descent σ α} {s : TokenStream × σ} (h : r.GivesUp s)
    (f : α → Descent σ β) : (r >>= f).GivesUp s := by
  obtain ⟨s', h⟩ := h
  refine ⟨s', ?_⟩
  change EStateM.bind r f s = _
  rw [EStateM.bind, h]

end Descent

namespace Routine

open Descent

variable {σ τ : Type} {ctx : Context} {b : Builder σ τ} {go : Routine τ → Descent σ τ}
  {r : Routine τ} {t : TokenStream} {s : σ}

/-- In front of a bracket a routine above the primary phrases calls the routine one rank below. -/
theorem body_givesUp (hsight : t.lookahead = "(") (hlow : 1 < r.rank) (hhigh : r.rank ≤ 14)
    (hgo : ∀ u : Routine τ, u.rank + 1 = r.rank → (go u).GivesUp (t, s)) :
    (body ctx b go r).GivesUp (t, s) := by
  cases r with
  | term => exact hgo (tier .disjunction) rfl
  | tier u =>
    refine hgo (pair u) ?_
    cases u <;> rfl
  | pair u =>
    refine (hgo u.routine ?_).andThen _
    cases u <;> rfl
  | sum =>
    rw [body, series, bind_assoc]
    exact (hgo product rfl).andThen _
  | product =>
    rw [body, series, bind_assoc]
    exact (hgo power rfl).andThen _
  | power => exact (hgo unary rfl).andThen _
  | unary =>
    have hplain : (body ctx b go unary) (t, s) =
        (go primary >>= fun x => do
          if (← seen) = "[" then go (index x) else return x) (t, s) := by
      change (if t.lookahead = "-" then _ else _ : Descent σ τ) (t, s) = _
      rw [if_neg (by rw [hsight]; decide), if_neg (by rw [hsight]; decide)]
    obtain ⟨s', h⟩ := (hgo primary rfl).andThen fun x => do
      if (← seen) = "[" then go (index x) else return x
    exact ⟨s', hplain.trans h⟩
  | primary | call | index | vector | brackets | braces => simp [rank] at hlow
  | elements => simp [rank] at hhigh

/-- A primary phrase in brackets is read by a term behind the first of them. -/
theorem body_primary_givesUp (hctx : ctx.WellNamed) (hsight : t.lookahead = "(")
    (hgo : (go term).GivesUp (t.next, s)) : (body ctx b go primary).GivesUp (t, s) := by
  have hparen : ctx.opening "(" = .paren := hctx.opening_of_symbolic (by decide)
  rw [body_primary_eq]
  change (entered b go t.lookahead (ctx.opening t.lookahead)).GivesUp (t, s)
  rw [hsight, hparen]
  exact hgo.andThen _

/-- Each bracket that is left takes fourteen calls, and the routine its rank in front of the
last. -/
theorem within_givesUp (hctx : ctx.WellNamed) {room k : Nat} (hlow : 0 < r.rank)
    (hhigh : r.rank ≤ 14) (hopens : t.Opens (k + 1)) (hroom : room < r.rank + 14 * k) :
    (within ctx b room r).GivesUp (t, s) := by
  induction room generalizing r t k with
  | zero => exact ⟨_, rfl⟩
  | succ room ih =>
    rcases Nat.lt_or_ge 1 r.rank with hlt | hle
    · refine body_givesUp hopens.1 hlt hhigh fun u hu => ?_
      exact ih (by omega) (by omega) hopens (by omega)
    · obtain rfl : r = primary := by
        cases r with
        | primary => rfl
        | tier u | pair u => cases u <;> simp [rank] at hle
        | _ => simp_all [rank]
      cases k with
      | zero => simp [rank] at hroom
      | succ k =>
        refine body_primary_givesUp hctx hopens.1 ?_
        refine ih (r := term) (Nat.succ_pos _) (Nat.le_refl _) hopens.2 ?_
        simp only [rank] at hroom ⊢
        omega

end Routine

namespace Grammar

theorem descend_givesUp {σ τ : Type} {ctx : Context} {b : Builder σ τ} (hctx : ctx.WellNamed)
    {tokens : List Token} {room k : Nat} (htokens : List.replicate k "(" <+: tokens)
    (hroom : room < 14 * k) (t : Token) (s : σ) :
    (descend ctx b room).GivesUp (⟨tokens, 0, t⟩, s) := by
  cases k with
  | zero => exact absurd hroom (Nat.not_lt_zero _)
  | succ k =>
    have hterm :
        (Routine.within ctx b room .term).GivesUp ((TokenStream.mk tokens 0 t).next, s) := by
      refine Routine.within_givesUp hctx (k := k) (Nat.succ_pos _) (Nat.le_refl _)
        (TokenStream.opens_next htokens t) ?_
      simp only [Routine.rank]
      omega
    exact hterm.andThen Descent.finish

end Grammar

namespace Expression

/-- A source in so many brackets. -/
def nested (source : String) : Nat → String
  | 0 => source
  | k + 1 => "(" ++ nested source k ++ ")"

section Nested

variable {ρ : Type} {ctx : Context} (splits : Bool) (chooser : Chooser ρ) (random : ρ)

/-- The brackets come to the front of the processed words. -/
theorem replicate_prefix_resolution (ctx : Context) (source : String) (k : Nat) :
    List.replicate k "(" <+:
      (resolution ctx splits chooser random (Token.words (nested source k))).1.tokens := by
  induction k with
  | zero => exact List.nil_prefix
  | succ k ih =>
    have hround := Bracket.round.isSign
    have hsurrounded := prepare_surrounded ctx splits chooser random
      (Token.words_bracketed .round (nested source k))
      (List.forall_mem_singleton.2 hround.1.whole) (List.forall_mem_singleton.2 hround.2.whole)
      (by decide) (by decide) (by decide)
    have halone := prepare_words ctx splits chooser random (nested source (k + 1))
    have htokens := congrArg (fun prepared => prepared.1.tokens) (halone.symm.trans hsurrounded)
    dsimp only at htokens
    rw [← List.append_assoc, ← List.append_assoc, List.append_left_inj] at htokens
    rw [htokens, List.replicate_succ]
    exact (List.prefix_append_right_inj ["("]).2 (ih.trans (List.prefix_append _ _))

variable {splits chooser random}

/-- An expression is read in any number of brackets. -/
theorem parse_nested (hctx : ctx.WellNamed) {source : String} {x : Term}
    (h : (parse ctx .terms splits chooser source random ()).result = .ok x ()) (k : Nat) :
    (parse ctx .terms splits chooser (nested source k) random ()).result = .ok x () := by
  induction k with
  | zero => exact h
  | succ k ih => exact (extends_round hctx (readable_of_parse ih)).result

end Nested

end Expression

namespace Session

variable {ρ σ τ : Type} {session : Session ρ} (chooser : Chooser ρ) (b : Builder σ τ)
  (splits : Option Bool) (state : σ)

/-- Where each bracket is left fewer than fourteen calls, there is no room for the expression. -/
theorem parse_nested (hctx : session.context.WellNamed) (source : String) {room k : Nat}
    (hroom : room < 14 * k) :
    ∃ s', (session.parse chooser b room (Expression.nested source k) splits state).1.result =
      .error .exhausted s' := by
  have htokens : List.replicate k "(" <+:
      (session.parsed chooser b (Expression.nested source k) splits state).prepared.tokens := by
    rw [parsed, Expression.parse]
    dsimp only
    rw [Expression.prepare_words]
    exact (Expression.replicate_prefix_resolution _ chooser _ _ source k).trans
      (List.prefix_append _ _)
  obtain ⟨s', hs'⟩ := Grammar.descend_givesUp (b := b) hctx htokens hroom session.lookahead state
  exact ⟨s'.2, by rw [parse_result_eq, hs']; rfl⟩

/-- A variable in brackets is a term, but there are brackets for which there is no room. -/
theorem nested_brackets_exhaust :
    (∀ k, (Expression.parse .standard .terms true .first (Expression.nested "x" k) () ()).result =
        .ok (.leaf (.var "x")) ()) ∧
      ((start .standard () true).parse .first .terms 990 (Expression.nested "x" 71) none
          ()).1.result = .error .exhausted () ∧
      ((start .standard () true).parse .first .terms (10 ^ 6) (Expression.nested "x" 80000) none
          ()).1.result = .error .exhausted () := by
  have hctx := Context.wellNamed_standard
  have hvariable : (Expression.parse .standard .terms true .first "x" () ()).result =
      .ok (.leaf (.var "x")) () := by
    cbv
  refine ⟨Expression.parse_nested hctx hvariable, ?_, ?_⟩
  · exact (parse_nested .first .terms none () hctx "x" (by decide)).choose_spec
  · exact (parse_nested .first .terms none () hctx "x" (by decide)).choose_spec

end Session

end TermReader
