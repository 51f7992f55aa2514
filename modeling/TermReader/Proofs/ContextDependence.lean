import TermReader.Expression
import TermReader.Context.Build
import TermReader.Proofs.WellFormed
import TermReader.Proofs.Lookahead
import TermReader.Proofs.Openings

/-!
What an expression takes from its context. Splitting and reading look up names in the
tables one token at a time, and only tokens of the input are looked up. Contexts that
differ in other names alone therefore treat the expression in the same way.
-/

namespace TermReader

namespace Context

/-- Every token is in the same tables of either context. -/
def AgreeOn (ctx ctx' : Context) (tokens : List Token) : Prop :=
  ∀ t ∈ tokens, ∀ table, t ∈ ctx'.names table ↔ t ∈ ctx.names table

namespace AgreeOn

variable {ctx ctx' : Context} {tokens tokens' : List Token} {t : Token}

theorem mono (h : AgreeOn ctx ctx' tokens) (hsub : tokens' ⊆ tokens) :
    AgreeOn ctx ctx' tokens' :=
  fun t ht => h t (hsub ht)

theorem next {c : Cursor} (h : AgreeOn ctx ctx' c.rest) : AgreeOn ctx ctx' c.next.rest :=
  h.mono (List.tail_subset _)

theorem arities_eq (h : AgreeOn ctx ctx' tokens) (ht : t ∈ tokens) :
    ctx'.arities t = ctx.arities t := by
  simp only [arities, h t ht]

theorem isFunction_eq (h : AgreeOn ctx ctx' tokens) (ht : t ∈ tokens) :
    ctx'.isFunction t = ctx.isFunction t := by
  rw [isFunction, isFunction, h.arities_eq ht]

theorem isIrrational_eq (h : AgreeOn ctx ctx' tokens) (ht : t ∈ tokens) :
    ctx'.isIrrational t = ctx.isIrrational t := by
  rw [isIrrational, isIrrational, Bool.eq_iff_iff, List.contains_iff_mem, List.contains_iff_mem]
  exact h t ht .irrationals

theorem opening_eq (h : AgreeOn ctx ctx' tokens) (ht : t ∈ tokens) :
    ctx'.opening t = ctx.opening t :=
  opening_congr (h.isIrrational_eq ht) (h.isFunction_eq ht)

theorem pieces_eq (h : AgreeOn ctx ctx' tokens) (ht : t ∈ tokens) :
    t.pieces ctx' = t.pieces ctx := by
  have hname : t.isUnknownName ctx' = t.isUnknownName ctx := by
    simp only [Token.isUnknownName, isConstant, h.isIrrational_eq ht, h.isFunction_eq ht]
  rw [Token.pieces, Token.pieces, hname]

theorem split_eq (h : AgreeOn ctx ctx' tokens) : Token.split ctx' tokens = Token.split ctx tokens :=
  List.flatMap_congr fun _ ht => h.pieces_eq ht

end AgreeOn

end Context

theorem Cursor.lookahead_mem (c : Cursor) (h : c.rest ≠ []) : c.lookahead ∈ c.rest := by
  rw [lookahead, List.headD_eq_head?_getD, List.head?_eq_some_head h]
  exact List.head_mem h

namespace Grammar

open Context

variable {σ τ α β : Type} {ctx ctx' : Context} {b : Builder σ τ}

/-- The tokens behind a value are some of those in front of it. -/
theorem rest_suffix_of_reaches {c d : Cursor} (h : c.Reaches ctx d) : d.rest <:+ c.rest := by
  induction h with
  | refl => exact List.suffix_refl _
  | next _ _ ih => exact (List.tail_suffix _).trans ih

/-- Two runs that read alike go on alike where they go on alike at every cursor whose
tokens are tokens of the input. -/
theorem andThen_congr {c : Cursor} {n : Cursor → Nat}
    {m m' : (d : Cursor) → Reading σ (Read (n d) β)} {f f' : β → Cursor → Reading σ α}
    (h : AgreeOn ctx ctx' c.rest)
    (hlocal : LocalAt ctx (fun d => (m d).bare) c) (hm : (m' c).bare = (m c).bare)
    (hf : ∀ x d, d.size < n c → AgreeOn ctx ctx' d.rest → f' x d = f x d) :
    (m' c).andThen f' = (m c).andThen f := by
  funext s
  cases hrun : m c s with
  | ok r s' =>
    have hbare := Reading.bare_of_ok hrun
    have hbare' := congrFun hm s ▸ hbare
    rw [Reading.andThen_of_bare_ok hbare, Reading.andThen_of_bare_ok (hm ▸ hbare)]
    obtain ⟨d, hends, -⟩ := hlocal 0 c (.refl 0 c) s
    dsimp only at hends
    rw [hbare] at hends
    have hrest := (rest_suffix_of_reaches hends.reaches).subset
    obtain ⟨hreach⟩ := hends
    rw [hf _ _ r.size_lt (h.mono hrest)]
  | error e s' =>
    have hbare := Reading.bare_of_error hrun
    rw [Reading.andThen_of_bare_error hbare, Reading.andThen_of_bare_error (hm ▸ hbare)]

/-- What may follow a primary phrase is read alike where the phrases in it are. -/
theorem indexed_congr {c : Cursor} (x : τ) (h : AgreeOn ctx ctx' c.rest)
    (hfirst : AgreeOn ctx ctx' c.next.rest →
      (phrase ctx' b .term c.next).bare = (phrase ctx b .term c.next).bare)
    (hsecond : ∀ d : Cursor, d.size < c.next.size → AgreeOn ctx ctx' d.next.rest →
      (phrase ctx' b .term d.next).bare = (phrase ctx b .term d.next).bare) :
    indexed ctx' b x c = indexed ctx b x c := by
  unfold indexed
  refine if_congr Iff.rfl ?_ rfl
  refine andThen_congr h.next ((localAt ctx b).1 _ _) (hfirst h.next) fun i d hd hrest => ?_
  refine if_congr Iff.rfl ?_ rfl
  exact andThen_congr hrest.next ((localAt ctx b).1 _ _) (hsecond d hd hrest.next)
    fun _ _ _ _ => rfl

theorem counted_congr {name : Token} (harities : ctx'.arities name = ctx.arities name)
    (dims args : List τ) (c : Cursor) :
    counted ctx' b name dims args c = counted ctx b name dims args c := by
  rw [counted, counted, harities]

/-- A call is read alike behind its dimensions where its arguments and its operand are. -/
theorem applied_congr {c : Cursor} {name : Token} (dims : List τ)
    (harities : ctx'.arities name = ctx.arities name) (h : AgreeOn ctx ctx' c.rest)
    (hargs : AgreeOn ctx ctx' c.next.rest →
      (arguments ctx' b c.next).bare = (arguments ctx b c.next).bare)
    (hoperand : AgreeOn ctx ctx' c.rest →
      (phrase ctx' b .unary c).bare = (phrase ctx b .unary c).bare) :
    applied ctx' b name dims c = applied ctx b name dims c := by
  unfold applied
  rw [harities]
  refine if_congr Iff.rfl (if_congr Iff.rfl (counted_congr harities _ _ _) ?_) ?_
  · exact andThen_congr h.next ((localAt ctx b).2.2.1 _) (hargs h.next) fun args d _ _ =>
      counted_congr harities dims args d
  · refine if_congr Iff.rfl ?_ rfl
    exact andThen_congr h ((localAt ctx b).1 _ _) (hoperand h) fun _ _ _ _ => rfl

/-- A primary phrase is read alike where what its first token opens is. -/
theorem primary_congr {c : Cursor} {o : Opening} (hend : c.rest ≠ [])
    (h : AgreeOn ctx ctx' c.rest) (hopening : ctx.opening c.lookahead = o)
    (hopened : opened ctx' b o c = opened ctx b o c) :
    (phrase ctx' b .primary c).bare = (phrase ctx b .primary c).bare := by
  rw [bare_primary, bare_primary, h.opening_eq (c.lookahead_mem hend), hopening, hopened]

/-- Contexts that agree on the tokens at a cursor are read with alike. The induction is on
the tokens left and the rank of the phrase, as for reading. -/
theorem bare_congr (ctx ctx' : Context) (b : Builder σ τ) :
    (∀ p c, AgreeOn ctx ctx' c.rest → (phrase ctx' b p c).bare = (phrase ctx b p c).bare) ∧
    (∀ c, c.rest ≠ [] → AgreeOn ctx ctx' c.rest →
      opened ctx' b .call c = opened ctx b .call c) ∧
    (∀ c, AgreeOn ctx ctx' c.rest → (arguments ctx' b c).bare = (arguments ctx b c).bare) ∧
    (∀ k c, AgreeOn ctx ctx' c.rest → (series ctx' b k c).bare = (series ctx b k c).bare) ∧
    (∀ k c, AgreeOn ctx ctx' c.rest → (more ctx' b k c).bare = (more ctx b k c).bare) ∧
    (∀ c, AgreeOn ctx ctx' c.rest → (dimensions ctx' b c).bare = (dimensions ctx b c).bare) := by
  obtain ⟨lphrase, -, larguments, lseries, lmore, ldimensions⟩ := localAt ctx b
  refine phrase.mutual_induct ctx _ _ _ _ _ _ ?tier ?sum ?product ?power ?minus ?not ?plain
    ?ended ?leaf ?excess ?call ?paren ?bar ?matrix ?vector ?set ?unexpected ?row ?noRow ?empty
    ?elements ?list ?arguments ?series ?stop ?step ?dimensions ?noDimensions
  case tier =>
    intro c t _ ihleft ihright h
    rw [bare_tier, bare_tier]
    refine andThen_congr h (lphrase _ _) (ihleft h) fun left d hd hrest => ?_
    refine if_congr Iff.rfl ?_ rfl
    exact andThen_congr hrest.next (lphrase _ _) (ihright d hd hrest.next) fun _ _ _ _ => rfl
  case sum =>
    intro c ih h
    rw [bare_sum, bare_sum]
    exact andThen_congr h (lseries _ _) (ih h) fun _ _ _ _ => rfl
  case product =>
    intro c ih h
    rw [bare_product, bare_product]
    exact andThen_congr h (lseries _ _) (ih h) fun _ _ _ _ => rfl
  case power =>
    intro c ihbase ihexponent h
    rw [bare_power, bare_power]
    refine andThen_congr h (lphrase _ _) (ihbase h) fun base d hd hrest => ?_
    refine if_congr Iff.rfl ?_ rfl
    exact andThen_congr hrest.next (lphrase _ _) (ihexponent d hd hrest.next) fun _ _ _ _ => rfl
  case minus =>
    intro c hminus _ ih h
    rw [bare_unary, bare_unary, if_pos hminus, if_pos hminus]
    exact andThen_congr h.next (lphrase _ _) (ih h.next) fun _ _ _ _ => rfl
  case not =>
    intro c hminus hnot _ ih h
    rw [bare_unary, bare_unary, if_neg hminus, if_neg hminus, if_pos hnot, if_pos hnot]
    exact andThen_congr h.next (lphrase _ _) (ih h.next) fun _ _ _ _ => rfl
  case plain =>
    intro c hminus hnot ih ihfirst ihsecond h
    rw [bare_unary, bare_unary, if_neg hminus, if_neg hminus, if_neg hnot, if_neg hnot]
    refine andThen_congr h (lphrase _ _) (ih h) fun x d hd hrest => ?_
    exact indexed_congr x hrest (ihfirst d hd) (ihsecond d hd)
  case ended =>
    intro c hend _
    rw [bare_primary, bare_primary, if_pos hend, if_pos hend]
  case leaf =>
    intro c hend _ l hopening h
    exact primary_congr hend h hopening rfl
  case excess =>
    intro c hend _ digits hopening h
    exact primary_congr hend h hopening rfl
  case call =>
    intro c hend _ hopening ih h
    exact primary_congr hend h hopening (ih h)
  case paren =>
    intro c hend _ hopening ih h
    refine primary_congr hend h hopening ?_
    rw [opened, opened]
    exact andThen_congr h.next (lphrase _ _) (ih h.next) fun _ _ _ _ => rfl
  case bar =>
    intro c hend _ hopening ih h
    refine primary_congr hend h hopening ?_
    rw [opened, opened]
    exact andThen_congr h.next (lphrase _ _) (ih h.next) fun _ _ _ _ => rfl
  case matrix =>
    intro c hend _ hopening hrow ih h
    refine primary_congr hend h hopening ?_
    rw [opened, opened, bracketed, bracketed, if_pos hrow, if_pos hrow]
    exact andThen_congr h.next (lseries _ _) (ih h.next) fun _ _ _ _ => rfl
  case vector =>
    intro c hend _ hopening hrow ih h
    refine primary_congr hend h hopening ?_
    rw [opened, opened, bracketed, bracketed, if_neg hrow, if_neg hrow]
    exact ih h.next
  case set =>
    intro c hend _ hopening ih h
    refine primary_congr hend h hopening ?_
    rw [opened, opened]
    exact andThen_congr h.next (lseries _ _) (ih h.next) fun _ _ _ _ => rfl
  case unexpected =>
    intro c hend _ hopening h
    exact primary_congr hend h hopening rfl
  case row =>
    intro c hopen _ ih h
    rw [bare_row, bare_row, if_pos hopen, if_pos hopen]
    exact ih h.next
  case noRow =>
    intro c hopen _
    rw [bare_row, bare_row, if_neg hopen, if_neg hopen]
  case empty =>
    intro c hclose _
    rw [bare_elements, bare_elements, if_pos hclose, if_pos hclose]
  case elements =>
    intro c hclose ih h
    rw [bare_elements, bare_elements, if_neg hclose, if_neg hclose]
    exact andThen_congr h (lseries _ _) (ih h) fun _ _ _ _ => rfl
  case list =>
    intro c hend _ ihdims ihargs ihoperand h
    have harities := h.arities_eq (c.lookahead_mem hend)
    rw [opened, opened]
    refine andThen_congr h.next (ldimensions _) (ihdims h.next) fun dims d hd hrest => ?_
    exact applied_congr dims harities hrest (ihargs d hd) (ihoperand d hd)
  case arguments =>
    intro c ih h
    rw [bare_arguments, bare_arguments]
    exact andThen_congr h (lseries _ _) (ih h) fun _ _ _ _ => rfl
  case series =>
    intro k c _ ihfirst ihmore h
    rw [bare_series, bare_series]
    refine andThen_congr h (lphrase _ _) (ihfirst h) fun first d hd hrest => ?_
    exact andThen_congr hrest (lmore _ _) (ihmore d hd hrest) fun _ _ _ _ => rfl
  case stop =>
    intro k c hjoint _
    rw [bare_more, bare_more, hjoint]
  case step =>
    intro k c j hjoint _ _ _ ihfirst ihmore h
    have hpast : AgreeOn ctx ctx' (c.past j).rest := by
      cases j with
      | written op => exact h.next
      | implied => exact h
    rw [bare_more, bare_more, hjoint]
    refine andThen_congr hpast (lphrase _ _) (ihfirst hpast) fun x d hd hrest => ?_
    exact andThen_congr hrest (lmore _ _) (ihmore d hd hrest) fun _ _ _ _ => rfl
  case dimensions =>
    intro c hopen _ ih h
    rw [bare_dimensions, bare_dimensions, if_pos hopen, if_pos hopen]
    exact andThen_congr h.next (lseries _ _) (ih h.next) fun _ _ _ _ => rfl
  case noDimensions =>
    intro c hopen _
    rw [bare_dimensions, bare_dimensions, if_neg hopen, if_neg hopen]

/-- Reading depends on the context through the tokens of the input alone. -/
theorem read_congr {tokens : List Token} (h : AgreeOn ctx ctx' tokens) :
    read ctx' b tokens = read ctx b tokens := by
  rw [read_eq, read_eq]
  exact andThen_congr (c := .start tokens) h ((localAt ctx b).1 _ _)
    ((bare_congr ctx ctx' b).1 _ _ h) fun _ _ _ _ => rfl

end Grammar

namespace Expression

variable {ρ σ τ : Type} {ctx ctx' : Context} {b : Builder σ τ} {splits : Bool}
  {chooser : Chooser ρ} {source : String} {random : ρ}

theorem prepare_congr (h : ctx.AgreeOn ctx' (Token.scan source)) :
    prepare ctx' splits chooser source random = prepare ctx splits chooser source random := by
  simp only [prepare, h.split_eq]

/-- An expression is read in the same way, from the draws to the outcome, in any context
with the same entries for its tokens. What else a context knows does not matter. -/
theorem parse_of_agreeOn (hscanned : ctx.AgreeOn ctx' (Token.scan source))
    (htokens : ctx.AgreeOn ctx' (prepare ctx splits chooser source random).1.tokens) (state : σ) :
    parse ctx' b splits chooser source random state =
      parse ctx b splits chooser source random state := by
  have hprepared : prepare ctx' splits chooser source random =
      prepare ctx splits chooser source random := prepare_congr hscanned
  have hread := Grammar.read_congr (b := b) htokens
  unfold parse
  rw [hprepared]
  dsimp only
  rw [hread]

/-- A function that the expression does not mention is added to the standard context. -/
theorem parse_with_log :
    parse ⟨"Logs", fun
        | .unary => Context.standard.names .unary ++ ["log"]
        | table => Context.standard.names table⟩ .terms true Chooser.first "2xy + sin z" () () =
      parse .standard .terms true Chooser.first "2xy + sin z" () () := by
  refine parse_of_agreeOn ?_ ?_ ()
  · have hscan : Token.scan "2xy + sin z" = ["2xy", "+", "sin", "z", Token.endMark] := by cbv
    rw [hscan]
    intro t ht table
    revert t
    cases table <;> decide
  · have htokens : (prepare .standard true Chooser.first "2xy + sin z" ()).1.tokens =
        ["2", "xy", "+", "sin", "z", Token.endMark] := by cbv
    rw [htokens]
    intro t ht table
    revert t
    cases table <;> decide

end Expression

end TermReader
