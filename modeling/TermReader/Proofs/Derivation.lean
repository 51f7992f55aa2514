import TermReader.Proofs.Reads
import TermReader.Proofs.Openings

/-!
The grammar of terms as derivations over whole token lists. A derivation may end
a phrase wherever the grammar allows it, so a list may have several trees. What
the reader returns is one of them: each rule of reading is a rule of the
grammar once what is left has been cut off.
-/

namespace TermReader

/-- The operators and separators that are written between operands of a series. -/
def Series.operators : Series → List Token
  | summands => ["+", "-"]
  | factors => ["*", "/"]
  | _ => [","]

theorem Tier.symbolic {t : Tier} : ∀ op ∈ t.operators, op.Symbolic := by
  cases t <;> decide

theorem Series.symbolic {k : Series} : ∀ op ∈ k.operators, op.Symbolic := by
  cases k <;> decide

/-- A token with which a factor may begin that follows without an operator. -/
def Token.Juxtaposes (t : Token) : Prop := t.isIdentifier = true ∨ t = "("

/-- `Derives ctx i w x`: the grammar derives the tokens `w` from the item `i`, with the
tree `x`. Which leaf a token is, or that it names a function, depends on the token
and the context alone; a numeral beyond the digit limit is no leaf. -/
inductive Derives (ctx : Context) : (i : Item) → List Token → i.Value → Prop
  | single {t u x} (hx : Derives ctx (.one t.operand) u x) : Derives ctx (.one (.tier t)) u x
  | joined {t op u x v y} (hx : Derives ctx (.one t.operand) u x) (hop : op ∈ t.operators)
      (hy : Derives ctx (.one t.operand) v y) :
      Derives ctx (.one (.tier t)) (u ++ op :: v) (.node op [x, y] [])
  | sum {u x v later} (hx : Derives ctx (.one .product) u x)
      (hlater : Derives ctx (.more .summands) v later) :
      Derives ctx (.one .sum) (u ++ v) (.ofSum x later)
  | product {u x v later} (hx : Derives ctx (.one .power) u x)
      (hlater : Derives ctx (.more .factors) v later) :
      Derives ctx (.one .product) (u ++ v) (.ofProduct x later)
  | base {u x} (hx : Derives ctx (.one .unary) u x) : Derives ctx (.one .power) u x
  | power {u x v y} (hx : Derives ctx (.one .unary) u x) (hy : Derives ctx (.one .unary) v y) :
      Derives ctx (.one .power) (u ++ "^" :: v) (.node "^" [x, y] [])
  | minus {u x} (hx : Derives ctx (.one .product) u x) :
      Derives ctx (.one .unary) ("-" :: u) (.node ".-" [x] [])
  | not {u x} (hx : Derives ctx (.one .primary) u x) :
      Derives ctx (.one .unary) ("!" :: u) (.node "!" [x] [])
  | plain {u x} (hx : Derives ctx (.one .primary) u x) : Derives ctx (.one .unary) u x
  | index1 {u x v i} (hx : Derives ctx (.one .primary) u x) (hi : Derives ctx (.one .term) v i) :
      Derives ctx (.one .unary) (u ++ "[" :: (v ++ ["]"])) (.node "index1" [x, i] [])
  | index2 {u x v i w j} (hx : Derives ctx (.one .primary) u x)
      (hi : Derives ctx (.one .term) v i) (hj : Derives ctx (.one .term) w j) :
      Derives ctx (.one .unary) (u ++ "[" :: (v ++ "," :: (w ++ ["]"])))
        (.node "index2" [x, i, j] [])
  | leaf {t l} (ht : ctx.opening t = .leaf l) : Derives ctx (.one .primary) [t] (.leaf l)
  | paren {u x} (hx : Derives ctx (.one .term) u x) :
      Derives ctx (.one .primary) ("(" :: (u ++ [")"])) x
  | bar {u x} (hx : Derives ctx (.one .term) u x) :
      Derives ctx (.one .primary) ("|" :: (u ++ ["|"])) (.node "abs" [x] [])
  | vector {u x} (hrow : lead u ≠ "[") (hx : Derives ctx (.one .elements) u x) :
      Derives ctx (.one .primary) ("[" :: u) x
  | matrix {u x v later} (hx : Derives ctx (.one .row) u x)
      (hlater : Derives ctx (.more .rows) v later) :
      Derives ctx (.one .primary) ("[" :: (u ++ (v ++ ["]"])))
        (.node "matrix" (Term.operands x later) [])
  | set {u x v later} (hx : Derives ctx (.one .term) u x)
      (hlater : Derives ctx (.more .terms) v later) :
      Derives ctx (.one .primary) ("\x7b" :: (u ++ (v ++ ["\x7d"])))
        (.node "set" (Term.operands x later) [])
  | callNone {t d dims} (ht : ctx.opening t = .call) (hdims : Derives ctx .dimensions d dims)
      (hcount : 0 ∈ ctx.arities t) :
      Derives ctx (.one .primary) (t :: (d ++ ["(", ")"])) (.node t [] dims)
  | callSome {t d dims u x v later} (ht : ctx.opening t = .call)
      (hdims : Derives ctx .dimensions d dims) (hx : Derives ctx (.one .term) u x)
      (hlater : Derives ctx (.more .terms) v later)
      (hcount : (Term.operands x later).length ∈ ctx.arities t) :
      Derives ctx (.one .primary) (t :: (d ++ "(" :: (u ++ (v ++ [")"]))))
        (.node t (Term.operands x later) dims)
  | apply {t u x} (ht : ctx.opening t = .call) (hangle : lead u ≠ "<") (hparen : lead u ≠ "(")
      (hone : 1 ∈ ctx.arities t) (hx : Derives ctx (.one .unary) u x) :
      Derives ctx (.one .primary) (t :: u) (.node t [x] [])
  | row {u x} (hx : Derives ctx (.one .elements) u x) : Derives ctx (.one .row) ("[" :: u) x
  | empty : Derives ctx (.one .elements) ["]"] (.node "vec" [] [])
  | elements {u x v later} (hx : Derives ctx (.one .term) u x)
      (hlater : Derives ctx (.more .terms) v later) :
      Derives ctx (.one .elements) (u ++ (v ++ ["]"])) (.node "vec" (Term.operands x later) [])
  | stop {k} : Derives ctx (.more k) [] []
  | step {k op u x v later} (hop : op ∈ k.operators) (hx : Derives ctx (.one k.operand) u x)
      (hlater : Derives ctx (.more k) v later) :
      Derives ctx (.more k) (op :: (u ++ v)) ((op, x) :: later)
  | juxtaposed {u x v later} (hstart : (lead u).Juxtaposes)
      (hx : Derives ctx (.one .power) u x) (hlater : Derives ctx (.more .factors) v later) :
      Derives ctx (.more .factors) (u ++ v) (("*", x) :: later)
  | noDimensions : Derives ctx .dimensions [] []
  | dimensions {u x v later} (hx : Derives ctx (.one .unary) u x)
      (hlater : Derives ctx (.more .dimensions) v later) :
      Derives ctx .dimensions ("<" :: (u ++ (v ++ [">"]))) (Term.operands x later)

/-- A phrase derives no empty list. -/
theorem Derives.ne_nil {ctx : Context} {i : Item} {u : List Token} {x : i.Value}
    (h : Derives ctx i u x) {p : Phrase} (hi : i = .one p) : u ≠ [] := by
  induction h generalizing p with
  | single _ ih => exact ih rfl
  | base _ ih => exact ih rfl
  | plain _ ih => exact ih rfl
  | sum _ _ ih => exact List.append_ne_nil_of_left_ne_nil (ih rfl) _
  | product _ _ ih => exact List.append_ne_nil_of_left_ne_nil (ih rfl) _
  | elements _ _ ih => exact List.append_ne_nil_of_left_ne_nil (ih rfl) _
  | stop | step | juxtaposed | noDimensions | dimensions => cases hi
  | _ => simp

theorem lead_append {u : List Token} (hu : u ≠ []) (v : List Token) : lead (u ++ v) = lead u := by
  cases u with
  | nil => exact absurd rfl hu
  | cons t u => rfl

/-- What a joint says about the token at which the series goes on. -/
theorem Series.of_joint? {k : Series} {t : Token} {j : Joint} (h : k.joint? t = some j) :
    (j = .written t ∧ t ∈ k.operators) ∨ (j = .implied ∧ k = .factors ∧ t.Juxtaposes) := by
  unfold Series.joint? at h
  split at h
  · split at h
    · next ht =>
      obtain rfl := Option.some.inj h
      exact .inl ⟨rfl, by simpa [Series.operators] using ht⟩
    · cases h
  · split at h
    · next ht =>
      obtain rfl := Option.some.inj h
      exact .inl ⟨rfl, by simpa [Series.operators] using ht⟩
    · split at h
      · next ht =>
        obtain rfl := Option.some.inj h
        exact .inr ⟨rfl, rfl, ht⟩
      · cases h
  · split at h
    · next hk₁ hk₂ ht =>
      obtain rfl := Option.some.inj h
      refine .inl ⟨rfl, ?_⟩
      cases k <;> simp_all [Series.operators]
    · cases h

/-- Where a series goes on with a phrase, it also does so in the grammar. -/
theorem Derives.of_joint {ctx : Context} {k : Series} {ts u v rest : List Token} {j : Joint}
    {x : Term} {later : List (Token × Term)} (hjoint : k.joint? (lead ts) = some j)
    (hpast : j.past ts = u ++ rest) (hx : Derives ctx (.one k.operand) u x)
    (hlater : Derives ctx (.more k) v later) :
    ∃ w, ts = w ++ rest ∧ Derives ctx (.more k) (w ++ v) ((j.operator, x) :: later) := by
  rcases Series.of_joint? hjoint with ⟨rfl, hop⟩ | ⟨rfl, rfl, hstart⟩
  · have hne : lead ts ≠ Token.endMark := by
      intro hend
      rw [hend, k.joint?_endMark] at hjoint
      cases hjoint
    refine ⟨lead ts :: u, ?_, .step hop hx hlater⟩
    rw [List.cons_append, ← hpast]
    exact eq_cons_of_lead rfl hne
  · refine ⟨u, hpast, .juxtaposed ?_ hx hlater⟩
    rwa [show ts = u ++ rest from hpast, lead_append (hx.ne_nil rfl)] at hstart

/-- Reading follows the grammar: what an item takes from the tokens is derived from it. -/
theorem Reads.derives {ctx : Context} {i : Item} {ts rest : List Token} {x : i.Value}
    (h : Reads ctx i ts x rest) : ∃ u, ts = u ++ rest ∧ Derives ctx i u x := by
  induction h with
  | single _ _ ih =>
    obtain ⟨u, rfl, hx⟩ := ih
    exact ⟨u, rfl, .single hx⟩
  | joined _ hop _ ihx ihy =>
    obtain ⟨u, rfl, hx⟩ := ihx
    obtain ⟨v, rfl, hy⟩ := ihy
    exact ⟨_, by simp, .joined hx hop hy⟩
  | sum _ _ ihx ihlater =>
    obtain ⟨u, rfl, hx⟩ := ihx
    obtain ⟨v, rfl, hlater⟩ := ihlater
    exact ⟨_, by simp, .sum hx hlater⟩
  | product _ _ ihx ihlater =>
    obtain ⟨u, rfl, hx⟩ := ihx
    obtain ⟨v, rfl, hlater⟩ := ihlater
    exact ⟨_, by simp, .product hx hlater⟩
  | base _ _ ih =>
    obtain ⟨u, rfl, hx⟩ := ih
    exact ⟨u, rfl, .base hx⟩
  | power _ _ ihx ihy =>
    obtain ⟨u, rfl, hx⟩ := ihx
    obtain ⟨v, rfl, hy⟩ := ihy
    exact ⟨_, by simp, .power hx hy⟩
  | minus _ ih =>
    obtain ⟨u, rfl, hx⟩ := ih
    exact ⟨_, rfl, .minus hx⟩
  | not _ ih =>
    obtain ⟨u, rfl, hx⟩ := ih
    exact ⟨_, rfl, .not hx⟩
  | plain _ _ _ _ ih =>
    obtain ⟨u, rfl, hx⟩ := ih
    exact ⟨u, rfl, .plain hx⟩
  | index1 _ _ _ _ ihx ihi =>
    obtain ⟨u, rfl, hx⟩ := ihx
    obtain ⟨v, rfl, hi⟩ := ihi
    exact ⟨_, by simp, .index1 hx hi⟩
  | index2 _ _ _ _ _ ihx ihi ihj =>
    obtain ⟨u, rfl, hx⟩ := ihx
    obtain ⟨v, rfl, hi⟩ := ihi
    obtain ⟨w, rfl, hj⟩ := ihj
    exact ⟨_, by simp, .index2 hx hi hj⟩
  | leaf ht => exact ⟨_, rfl, .leaf ht⟩
  | paren ht _ ih =>
    obtain rfl := Context.eq_symbol_of_opening ht rfl
    obtain ⟨u, rfl, hx⟩ := ih
    exact ⟨_, by simp, .paren hx⟩
  | bar ht _ ih =>
    obtain rfl := Context.eq_symbol_of_opening ht rfl
    obtain ⟨u, rfl, hx⟩ := ih
    exact ⟨_, by simp, .bar hx⟩
  | vector ht hrow _ ih =>
    obtain rfl := Context.eq_symbol_of_opening ht rfl
    obtain ⟨u, rfl, hx⟩ := ih
    rw [lead_append (hx.ne_nil rfl)] at hrow
    exact ⟨_, rfl, .vector hrow hx⟩
  | matrix ht _ _ ihx ihlater =>
    obtain rfl := Context.eq_symbol_of_opening ht rfl
    obtain ⟨u, rfl, hx⟩ := ihx
    obtain ⟨v, rfl, hlater⟩ := ihlater
    exact ⟨_, by simp, .matrix hx hlater⟩
  | set ht _ _ ihx ihlater =>
    obtain rfl := Context.eq_symbol_of_opening ht rfl
    obtain ⟨u, rfl, hx⟩ := ihx
    obtain ⟨v, rfl, hlater⟩ := ihlater
    exact ⟨_, by simp, .set hx hlater⟩
  | callNone ht _ hcount ih =>
    obtain ⟨d, rfl, hdims⟩ := ih
    exact ⟨_, by simp, .callNone ht hdims hcount⟩
  | callSome ht _ _ _ _ hcount ihdims ihx ihlater =>
    obtain ⟨d, rfl, hdims⟩ := ihdims
    obtain ⟨u, rfl, hx⟩ := ihx
    obtain ⟨v, rfl, hlater⟩ := ihlater
    exact ⟨_, by simp, .callSome ht hdims hx hlater hcount⟩
  | apply ht hangle hparen hone _ ih =>
    obtain ⟨u, rfl, hx⟩ := ih
    rw [lead_append (hx.ne_nil rfl)] at hangle hparen
    exact ⟨_, rfl, .apply ht hangle hparen hone hx⟩
  | row _ ih =>
    obtain ⟨u, rfl, hx⟩ := ih
    exact ⟨_, rfl, .row hx⟩
  | empty => exact ⟨_, rfl, .empty⟩
  | elements _ _ _ ihx ihlater =>
    obtain ⟨u, rfl, hx⟩ := ihx
    obtain ⟨v, rfl, hlater⟩ := ihlater
    exact ⟨_, by simp, .elements hx hlater⟩
  | stop _ => exact ⟨_, rfl, .stop⟩
  | step hjoint _ _ ihx ihlater =>
    obtain ⟨u, hpast, hx⟩ := ihx
    obtain ⟨v, rfl, hlater⟩ := ihlater
    obtain ⟨w, rfl, hstep⟩ := Derives.of_joint hjoint hpast hx hlater
    exact ⟨_, by simp, hstep⟩
  | noDimensions _ => exact ⟨_, rfl, .noDimensions⟩
  | dimensions _ _ ihx ihlater =>
    obtain ⟨u, rfl, hx⟩ := ihx
    obtain ⟨v, rfl, hlater⟩ := ihlater
    exact ⟨_, by simp, .dimensions hx hlater⟩

end TermReader
