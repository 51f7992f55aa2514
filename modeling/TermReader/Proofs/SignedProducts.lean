import TermReader.Proofs.Evaluation
import TermReader.Proofs.Surroundings

/-!
Products with signs. A sign takes the whole rest of a product, and not its own factor alone. For
the value of the product this makes no difference, since a sign may be moved from one factor to
another. The exceptions are signs behind a division, in an exponent and in the operand of a
function without brackets: there the rest of the product belongs elsewhere, so none may follow.
-/

namespace TermReader

universe u

variable {ctx : Context}

/-- An operand, as it is read alone. -/
structure Operand (ctx : Context) where
  tokens : List Token
  term : Term
  reads : Grammar.ReadsAlone ctx .unary tokens term

/-- A token that stands for a value. -/
def Operand.ofLeaf (hctx : ctx.WellNamed) {t : Token} {l : Leaf} (ht : ctx.opening t = .leaf l) :
    Operand ctx :=
  ⟨[t], .leaf l, .leaf hctx ht⟩

/-- An operand that may have a sign. -/
structure SignedOperand (ctx : Context) where
  negative : Bool
  operand : Operand ctx

/-- A factor of a product: an operand that may have an exponent, with or without a sign. -/
structure Factor (ctx : Context) where
  negative : Bool
  base : Operand ctx
  exponent : Option (SignedOperand ctx)

/-- What a further factor does. -/
inductive Operation
  | mul
  | div
  deriving DecidableEq

/-- A product as it is written: a factor, and further ones with their operations. -/
structure SignedProduct (ctx : Context) where
  first : Factor ctx
  later : List (Operation × Factor ctx)

/-- The tokens behind a sign, if there is one. -/
def signed : Bool → List Token → List Token
  | true, ts => "-" :: ts
  | false, ts => ts

def Operation.token : Operation → Token
  | mul => "*"
  | div => "/"

namespace SignedOperand

def tokens (v : SignedOperand ctx) : List Token := signed v.negative v.operand.tokens

/-- The operand has no sign and does not go on at the token. -/
def Stops (s : Token) (v : SignedOperand ctx) : Prop :=
  v.negative = false ∧ ¬ Grammar.GoesOn ctx s v.operand.tokens

end SignedOperand

namespace Factor

/-- A factor without its sign. -/
def body (f : Factor ctx) : List Token :=
  match f.exponent with
  | none => f.base.tokens
  | some v => f.base.tokens ++ "^" :: v.tokens

def tokens (f : Factor ctx) : List Token := signed f.negative f.body

/-- The base does not go on at the exponent. -/
def Powered (f : Factor ctx) : Prop :=
  f.exponent = none ∨ ¬ Grammar.GoesOn ctx "^" f.base.tokens

/-- What the factor ends with does not go on at the token. -/
def Stops (s : Token) (f : Factor ctx) : Prop :=
  match f.exponent with
  | none => ¬ Grammar.GoesOn ctx s f.base.tokens
  | some v => v.Stops s

end Factor

namespace SignedProduct

def laterTokens (later : List (Operation × Factor ctx)) : List Token :=
  later.flatMap fun f => f.1.token :: f.2.tokens

def tokens (p : SignedProduct ctx) : List Token := p.first.tokens ++ laterTokens p.later

/-- Every operand ends where the next token of the product stands, and behind a division only the
last factor has a sign. -/
def Settled (f : Factor ctx) : List (Operation × Factor ctx) → Prop
  | [] => f.Powered
  | (o, g) :: later => f.Powered ∧ f.Stops o.token ∧
      (o = .div → g.negative = true → later = []) ∧ Settled g later

end SignedProduct

section Values

variable {K : Type u} [Field K]

/-- Changes the sign of a value. -/
def withSign : Bool → K → K
  | true, a => -a
  | false, a => a

def Operation.apply : Operation → K → K → K
  | mul, a, b => a * b
  | div, a, b => a / b

variable (power : K → K → K) (other : Term → K)

def Operand.value (u : Operand ctx) : K := u.term.value power other

def SignedOperand.value (v : SignedOperand ctx) : K :=
  withSign v.negative (v.operand.value power other)

def Factor.bodyValue (f : Factor ctx) : K :=
  match f.exponent with
  | none => f.base.value power other
  | some v => power (f.base.value power other) (v.value power other)

/-- A sign belongs to the power behind it. -/
def Factor.value (f : Factor ctx) : K := withSign f.negative (f.bodyValue power other)

def SignedProduct.laterValue (a : K) (later : List (Operation × Factor ctx)) : K :=
  later.foldl (fun a f => f.1.apply a (f.2.value power other)) a

/-- The factors are taken one by one from the left. -/
def SignedProduct.value (p : SignedProduct ctx) : K :=
  laterValue power other (p.first.value power other) p.later

end Values

section Scale

variable {K : Type u} [Field K] (power : K → K → K) (other : Term → K)

theorem Operation.apply_eq_mul (o : Operation) (a b : K) : o.apply a b = a * o.apply 1 b := by
  cases o with
  | mul => simp [apply]
  | div => simp [apply, div_eq_mul_inv]

theorem SignedProduct.laterValue_eq_mul (a : K) (later : List (Operation × Factor ctx)) :
    laterValue power other a later = a * laterValue power other 1 later := by
  induction later generalizing a with
  | nil => exact (mul_one a).symm
  | cons f later ih =>
    have hcons (a : K) : laterValue power other a (f :: later) =
      laterValue power other (f.1.apply a (f.2.value power other)) later := rfl
    rw [hcons, hcons, ih, f.1.apply_eq_mul, ih (f.1.apply 1 _), mul_assoc]

theorem Term.step_token (o : Operation) (a : K) (y : Term) :
    Term.step power other a (o.token, y) = o.apply a (y.value power other) := by
  cases o with
  | mul => exact if_neg (by decide : "*" ≠ "/")
  | div => exact if_pos rfl

end Scale

section Reading

variable {c : List Token}

theorem Operand.before (u : Operand ctx) (hc : ¬ Grammar.GoesOn ctx (lead c) u.tokens) :
    Reads ctx (.one .unary) (u.tokens ++ c) u.term c :=
  (Grammar.readsAlone_iff.1 u.reads).before (.inr hc)

theorem Grammar.not_goesOn_of_closes {s : Token} (h : Phrase.product.Closes s) (u : List Token) :
    ¬ GoesOn ctx s u :=
  Item.Closes.not_takes (i := .one .unary) (Phrase.Closes.mono h (by decide))

/-- A signed operand is read where the product closes, and one without a sign wherever it stops. -/
theorem SignedOperand.exists_reads (v : SignedOperand ctx)
    (hc : v.Stops (lead c) ∨ Phrase.product.Closes (lead c)) :
    ∃ y, Reads ctx (.one .unary) (v.tokens ++ c) y c ∧
      ∀ (K : Type u) [Field K] (power : K → K → K) (other : Term → K),
        y.value power other = v.value power other := by
  obtain ⟨negative, u⟩ := v
  have hgoes : ¬ Grammar.GoesOn ctx (lead c) u.tokens :=
    hc.elim And.right fun h => Grammar.not_goesOn_of_closes h _
  have hu := u.before hgoes
  cases negative with
  | false => exact ⟨u.term, hu, fun K _ power other => rfl⟩
  | true =>
    have hclose := hc.resolve_left fun h => Bool.noConfusion h.1
    have hpower : Reads ctx (.one .power) (u.tokens ++ c) u.term c :=
      .base hu (hclose.ne (k := .power) le_rfl (by decide))
    have hstop := (Item.Closes.more (k := .factors) hclose).2
    refine ⟨_, .minus (.product hpower (.stop hstop)), fun K _ power other => ?_⟩
    exact Term.value_negated power other u.term

/-- A factor without its sign is read as a power. -/
theorem Factor.exists_reads_body (f : Factor ctx) (hpow : f.Powered)
    (hc : f.Stops (lead c) ∧ lead c ≠ "^" ∨ Phrase.product.Closes (lead c)) :
    ∃ x, Reads ctx (.one .power) (f.body ++ c) x c ∧
      ∀ (K : Type u) [Field K] (power : K → K → K) (other : Term → K),
        x.value power other = f.bodyValue power other := by
  obtain ⟨negative, base, exponent⟩ := f
  cases exponent with
  | none =>
    have hgoes : ¬ Grammar.GoesOn ctx (lead c) base.tokens :=
      hc.elim And.left fun h => Grammar.not_goesOn_of_closes h _
    have hne : lead c ≠ "^" :=
      hc.elim And.right fun h => h.ne (k := .power) le_rfl (by decide)
    exact ⟨base.term, .base (base.before hgoes) hne, fun K _ power other => rfl⟩
  | some v =>
    obtain ⟨y, hy, hvalue⟩ := v.exists_reads (hc.imp_left And.left)
    have hbase := base.before (c := "^" :: (v.tokens ++ c)) (hpow.resolve_left nofun)
    refine ⟨.node "^" [base.term, y] [], ?_, fun K _ power other => ?_⟩
    · simp only [body, List.append_assoc, List.cons_append]
      exact .power hbase hy
    · rw [Term.value_power, hvalue]
      rfl

/-- The tokens are read as a power and further factors behind it, up to `c`. The values of the
power and of the product of the further factors are as given. -/
def ReadsFactors (ctx : Context) (ts c : List Token)
    (P : ∀ (K : Type u) [Field K], (K → K → K) → (Term → K) → K → K → Prop) : Prop :=
  ∃ x ys mid, Reads ctx (.one .power) ts x mid ∧ Reads ctx (.more .factors) mid ys c ∧
    ∀ (K : Type u) [Field K] (power : K → K → K) (other : Term → K),
      P K power other (x.value power other) (ys.foldl (Term.step power other) 1)

open SignedProduct in
/-- A factor is read with its sign, if it is read without. The sign takes all further factors with
it. This leaves the value as it is, because behind a division there are none. -/
theorem Factor.reads_signed {later : List (Operation × Factor ctx)} (o : Operation) (f : Factor ctx)
    (hsign : o = .div → f.negative = true → later = []) (hc : Phrase.product.Closes (lead c))
    (h : ReadsFactors.{u} ctx (f.body ++ (laterTokens later ++ c)) c fun _ _ power other a b =>
      a = f.bodyValue power other ∧ b = laterValue power other 1 later) :
    ReadsFactors.{u} ctx (f.tokens ++ (laterTokens later ++ c)) c fun _ _ power other a b =>
      o.apply 1 a * b = o.apply 1 (f.value power other) * laterValue power other 1 later := by
  obtain ⟨x, ys, mid, hx, hys, hvalue⟩ := h
  cases hnegative : f.negative with
  | false =>
    refine ⟨x, ys, mid, ?_, hys, fun K _ power other => ?_⟩
    · simpa only [tokens, signed, hnegative] using hx
    · obtain ⟨hfirst, hlater⟩ := hvalue K power other
      rw [hfirst, hlater]
      simp only [value, withSign, hnegative]
  | true =>
    have hpower : lead c ≠ "^" := hc.ne (k := .power) le_rfl (by decide)
    have hstop := (Item.Closes.more (k := .factors) hc).2
    refine ⟨.node ".-" [.ofProduct x ys] [], [], c, ?_, .stop hstop, fun K _ power other => ?_⟩
    · simp only [tokens, signed, hnegative, List.cons_append]
      exact .base (.minus (.product hx hys)) hpower
    · obtain ⟨hfirst, hlater⟩ := hvalue K power other
      rw [Term.value_negated, Term.value_ofProduct hys.operator_of_factors, List.foldl_nil,
        ← mul_one (x.value power other), Term.foldl_step_mul, hfirst, hlater]
      simp only [value, withSign, hnegative]
      cases o with
      | mul => simp only [Operation.apply]; ring
      | div =>
        have hlast := hsign rfl hnegative
        subst hlast
        simp only [Operation.apply, laterValue, List.foldl_nil]
        ring

open SignedProduct in
theorem Factor.reads_body {later : List (Operation × Factor ctx)} (f : Factor ctx)
    (h : Settled f later) (hc : Phrase.product.Closes (lead c)) :
    ReadsFactors.{u} ctx (f.body ++ (laterTokens later ++ c)) c fun _ _ power other a b =>
      a = f.bodyValue power other ∧ b = laterValue power other 1 later := by
  induction later generalizing f with
  | nil =>
    have hstop := (Item.Closes.more (k := .factors) hc).2
    obtain ⟨x, hx, hvalue⟩ := f.exists_reads_body h (.inr hc)
    exact ⟨x, [], c, hx, .stop hstop, fun K _ power other => ⟨hvalue K power other, rfl⟩⟩
  | cons g later ih =>
    obtain ⟨o, g⟩ := g
    obtain ⟨hpow, hstops, hsign, hsettled⟩ := h
    have hop : Series.factors.joint? o.token = some (.written o.token) := by cases o <;> decide
    have hne : o.token ≠ "^" := by cases o <;> decide
    obtain ⟨y, ys, mid, hy, hys, hlater⟩ := g.reads_signed o hsign hc (ih g hsettled)
    obtain ⟨x, hx, hfirst⟩ := f.exists_reads_body
      (c := o.token :: (g.tokens ++ (laterTokens later ++ c))) hpow (.inl ⟨hstops, hne⟩)
    have hmore : Reads ctx (.more .factors) (o.token :: (g.tokens ++ (laterTokens later ++ c)))
        ((o.token, y) :: ys) c :=
      .step (j := .written o.token) hop hy hys
    refine ⟨x, (o.token, y) :: ys, _, ?_, hmore,
      fun K _ power other => ⟨hfirst K power other, ?_⟩⟩
    · simpa [laterTokens] using hx
    · have hvalue := hlater K power other
      rw [List.foldl_cons, Term.step_token, ← mul_one (o.apply 1 _), Term.foldl_step_mul, hvalue,
        ← laterValue_eq_mul]
      rfl

namespace Grammar

/-- Signs do not regroup a product that is settled: it is accepted, and in every field the value
of its term is that of the factors from left to right, each with its own sign, whatever powers
mean. Nothing is asked of the divisors, since the quotient by zero is the same on both sides. -/
theorem read_signed_product (hctx : ctx.WellNamed) (p : SignedProduct ctx)
    (h : SignedProduct.Settled p.first p.later) :
    ∃ x, read ctx .terms (p.tokens ++ [Token.endMark]) () = .ok x () ∧
      ∀ (K : Type u) [Field K] (power : K → K → K) (other : Term → K),
        x.value power other = p.value power other := by
  have hc : Phrase.product.Closes (lead [Token.endMark]) :=
    Phrase.closes_of_mem _ (t := Token.endMark) (by decide)
  obtain ⟨x, ys, mid, hx, hys, hvalue⟩ :=
    Factor.reads_signed.{u} .mul p.first nofun hc (p.first.reads_body h hc)
  have hproduct := (Reads.product hx hys).climb hctx .product_term (.of_mem (by decide))
  refine ⟨Term.ofProduct x ys, (read_eq_ok_iff ctx _ _).2 ?_, fun K _ power other => ?_⟩
  · simpa [SignedProduct.tokens] using hproduct
  · have hvalue := hvalue K power other
    simp only [Operation.apply, one_mul] at hvalue
    rw [Term.value_ofProduct hys.operator_of_factors, ← mul_one (x.value power other),
      Term.foldl_step_mul, hvalue, ← SignedProduct.laterValue_eq_mul]
    rfl

/-- A product with a sign in front and one behind its division. -/
theorem read_signed_product_divided :
    ∃ x, read .standard .terms
          ["-", "x", "*", "2", "/", "-", "y", "^", "-", "2", Token.endMark] () = .ok x () ∧
      ∀ (K : Type) [Field K] (power : K → K → K) (other : Term → K),
        x.value power other = -other (.leaf (.var "x")) * other (.leaf (.int 2)) /
          -power (other (.leaf (.var "y"))) (-other (.leaf (.int 2))) := by
  have hctx := Context.wellNamed_standard
  have hx : Context.standard.opening "x" = .leaf (.var "x") := by cbv
  have hy : Context.standard.opening "y" = .leaf (.var "y") := by cbv
  have htwo : Context.standard.opening "2" = .leaf (.int 2) := by cbv
  let two : Operand .standard := .ofLeaf hctx htwo
  let p : SignedProduct .standard :=
    ⟨⟨true, .ofLeaf hctx hx, none⟩,
      [(.mul, ⟨false, two, none⟩), (.div, ⟨true, .ofLeaf hctx hy, some ⟨true, two⟩⟩)]⟩
  have hsettled : SignedProduct.Settled p.first p.later := by
    refine ⟨.inl rfl, ?_, fun h => absurd h (by decide), .inl rfl, ?_, fun _ _ => rfl, .inr ?_⟩
    · exact not_goesOn_of_leaf hctx hx (by decide)
    · exact not_goesOn_of_leaf hctx htwo (by decide)
    · exact not_goesOn_of_leaf hctx hy (by decide)
  obtain ⟨z, hz, hvalue⟩ := read_signed_product hctx p hsettled
  exact ⟨z, hz, fun K _ power other => hvalue K power other⟩

/-- Numerals have their values in the rational numbers, and everything else is one. -/
def numeralValue : Term → ℚ
  | .leaf (.int n) => n
  | _ => 1

/-- A sign behind a division, one in an exponent and one behind a function without brackets, each
with further factors behind it. Powers are taken for sums. -/
theorem signs_regroup :
    ∃ p q r : SignedProduct Context.standard,
      (p.tokens = ["8", "/", "-", "4", "*", "2"] ∧ q.tokens = ["2", "^", "-", "1", "*", "3"] ∧
        r.tokens = ["sin", "-", "2", "*", "3"]) ∧
      ∀ s ∈ [p, q, r], ∃ x, read .standard .terms (s.tokens ++ [Token.endMark]) () = .ok x () ∧
        x.value (· + ·) numeralValue ≠ s.value (· + ·) numeralValue := by
  have hctx := Context.wellNamed_standard
  let one : Operand .standard := .ofLeaf hctx (t := "1") (l := .int 1) (by cbv)
  let two : Operand .standard := .ofLeaf hctx (t := "2") (l := .int 2) (by cbv)
  let three : Operand .standard := .ofLeaf hctx (t := "3") (l := .int 3) (by cbv)
  let four : Operand .standard := .ofLeaf hctx (t := "4") (l := .int 4) (by cbv)
  let eight : Operand .standard := .ofLeaf hctx (t := "8") (l := .int 8) (by cbv)
  let sine : Operand .standard :=
    ⟨["sin", "-", "2"], .node "sin" [.node ".-" [.leaf (.int 2)] []] [],
      ⟨3, [Token.endMark]⟩, by decide, by cbv, rfl⟩
  let p : SignedProduct .standard :=
    ⟨⟨false, eight, none⟩, [(.div, ⟨true, four, none⟩), (.mul, ⟨false, two, none⟩)]⟩
  let q : SignedProduct .standard :=
    ⟨⟨false, two, some ⟨true, one⟩⟩, [(.mul, ⟨false, three, none⟩)]⟩
  let r : SignedProduct .standard := ⟨⟨false, sine, none⟩, [(.mul, ⟨false, three, none⟩)]⟩
  refine ⟨p, q, r, ⟨rfl, rfl, rfl⟩, ?_⟩
  rw [List.forall_mem_cons, List.forall_mem_cons, List.forall_mem_singleton]
  refine ⟨?_, ?_, ?_⟩
  · refine ⟨.node "/" [.leaf (.int 8), .node ".-"
      [.node "*" [.leaf (.int 4), .leaf (.int 2)] []] []] [], ?_, ?_⟩
    · cbv
    · have hvalue : p.value (· + ·) numeralValue = ((8 : ℕ) : ℚ) / -(4 : ℕ) * (2 : ℕ) := rfl
      rw [hvalue]
      norm_num [numeralValue]
  · refine ⟨.node "^" [.leaf (.int 2), .node ".-"
      [.node "*" [.leaf (.int 1), .leaf (.int 3)] []] []] [], ?_, ?_⟩
    · cbv
    · have hvalue : q.value (· + ·) numeralValue = (((2 : ℕ) : ℚ) + -(1 : ℕ)) * (3 : ℕ) := rfl
      rw [hvalue]
      norm_num [numeralValue]
  · refine ⟨.node "sin" [.node ".-" [.node "*" [.leaf (.int 2), .leaf (.int 3)] []] []] [], ?_, ?_⟩
    · cbv
    · have hvalue : r.value (· + ·) numeralValue = 1 * (3 : ℕ) := rfl
      have happlied : Term.value (· + ·) numeralValue (.node "sin" [.node ".-"
          [.node "*" [.leaf (.int 2), .leaf (.int 3)] []] []] []) = 1 := rfl
      rw [hvalue, happlied]
      norm_num

end Grammar

end Reading

end TermReader
