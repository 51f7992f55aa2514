import TermReader.Proofs.Exponents

/-!
Comparisons and logical operators do not chain. A tier has room for one operator between two
operands. Whatever these end with, neither of them goes on at an operator of the tier, since it
is looser than all that an operand takes; and no looser tier goes on at the second operator.
That `<` also opens a list of dimensions makes no difference: such a list stands behind the name
of a function, and a name is no operand before its call is complete.
-/

namespace TermReader

/-- A token is an operator of one tier at most. -/
theorem Tier.eq_of_mem_operators {t t' : Tier} {op : Token} (h : op ∈ t.operators)
    (h' : op ∈ t'.operators) : t = t' :=
  Tail.tier.inj (Tail.starts_unique (k := .tier t) (.inl h) (.inl h'))

/-- The operands of a tier do not go on at its operators. -/
theorem Tier.closes_operand {t : Tier} {op : Token} (h : op ∈ t.operators) :
    t.operand.Closes op := by
  refine Phrase.closes_of_starts (k := .tier t) (.inl h) ?_
  cases t <;> decide

namespace Reads

variable {ctx : Context} {t : Tier} {op : Token} {ts rest : List Token} {x : Term}

/-- What a tier leaves at an operator of its own is left by the looser tiers too. -/
theorem term_of_tier (h : Reads ctx (.one (.tier t)) ts x (op :: rest)) (hop : op ∈ t.operators) :
    Reads ctx (.one .term) ts x (op :: rest) := by
  have hstop {t' : Tier} (hne : t ≠ t') : lead (op :: rest) ∉ t'.operators :=
    fun hop' => hne (Tier.eq_of_mem_operators hop hop')
  cases t with
  | disjunction => exact h
  | conjunction => exact .single h (hstop (by decide))
  | equality => exact .single (.single h (hstop (by decide))) (hstop (by decide))
  | relation =>
    exact .single (.single (.single h (hstop (by decide))) (hstop (by decide))) (hstop (by decide))

end Reads

namespace Grammar

variable {ctx : Context} {t : Tier} {op op₁ op₂ : Token} {u v : List Token} {x y : Term}

/-- An operand that is read alone is read before every operator of its tier. -/
theorem ReadsAlone.before_operator (hu : ReadsAlone ctx t.operand u x) (hop : op ∈ t.operators)
    (c : List Token) : Reads ctx (.one t.operand) (u ++ op :: c) x (op :: c) :=
  (readsAlone_iff.1 hu).before (.of_closes (Tier.closes_operand hop))

/-- Two operands with an operator of the tier between them are read up to a second operator. -/
theorem ReadsAlone.joined (hu : ReadsAlone ctx t.operand u x) (hv : ReadsAlone ctx t.operand v y)
    (h₁ : op₁ ∈ t.operators) (h₂ : op₂ ∈ t.operators) (c : List Token) :
    Reads ctx (.one (.tier t)) (u ++ op₁ :: (v ++ op₂ :: c)) (.node op₁ [x, y] []) (op₂ :: c) :=
  .joined (hu.before_operator h₁ _) h₁ (hv.before_operator h₂ c)

/-- Operators of one tier do not chain. Behind two operands with an operator between them a
second operator of the tier is rejected, whatever follows it. -/
theorem read_two_operators (hu : ReadsAlone ctx t.operand u x) (hv : ReadsAlone ctx t.operand v y)
    (h₁ : op₁ ∈ t.operators) (h₂ : op₂ ∈ t.operators) (c : List Token) :
    read ctx .terms (u ++ op₁ :: (v ++ op₂ :: c)) () =
      .error (.rejected ⟨.trailingTokens, op₂, u.length + 1 + v.length, none⟩) () := by
  have hterm := (hu.joined hv h₁ h₂ c).term_of_tier h₂
  have hrest : op₂ :: c ≠ [Token.endMark] := fun h => Tier.ne_endMark h₂ (List.cons.inj h).1
  have hposition : (u ++ op₁ :: (v ++ op₂ :: c)).length - (op₂ :: c).length =
      u.length + 1 + v.length := by
    simp only [List.length_append, List.length_cons]
    omega
  rw [read_eq_error_of_reads hterm hrest, hposition, lead_cons]

/-- A function without brackets and a list of dimensions are operands of comparisons. What
follows the second comparison is not looked at. -/
theorem read_two_comparisons :
    (ReadsAlone .standard Tier.relation.operand ["sin", "x"]
        (.node "sin" [.leaf (.var "x")] []) ∧
      ReadsAlone .standard Tier.relation.operand ["zeros", "<", "2", ">", "(", ")"]
        (.node "zeros" [] [.leaf (.int 2)])) ∧
    ("<" ∈ Tier.relation.operators ∧ "<=" ∈ Tier.relation.operators) ∧
    read .standard .terms
        (["sin", "x"] ++ "<" :: (["zeros", "<", "2", ">", "(", ")"] ++ "<=" :: [")", "<"])) () =
      .error (.rejected ⟨.trailingTokens, "<=", 2 + 1 + 6, none⟩) () := by
  have hsine : ReadsAlone .standard Tier.relation.operand ["sin", "x"]
      (.node "sin" [.leaf (.var "x")] []) := ⟨⟨2, [Token.endMark]⟩, by decide, by cbv, rfl⟩
  have hzeros : ReadsAlone .standard Tier.relation.operand ["zeros", "<", "2", ">", "(", ")"]
      (.node "zeros" [] [.leaf (.int 2)]) := ⟨⟨6, [Token.endMark]⟩, by decide, by cbv, rfl⟩
  have hless : "<" ∈ Tier.relation.operators := by decide
  have hatMost : "<=" ∈ Tier.relation.operators := by decide
  exact ⟨⟨hsine, hzeros⟩, ⟨hless, hatMost⟩, read_two_operators hsine hzeros hless hatMost _⟩

end Grammar

end TermReader
