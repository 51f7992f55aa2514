import TermReader.Proofs.Readable
import TermReader.Proofs.Separation
import TermReader.Proofs.WellFormed

/-!
Expressions that stay valid when they are split. Where every token that falls apart falls
into operands and stands where a product may go on, what is accepted unsplit is accepted
split, with the same draws. Each of the conditions is needed.
-/

namespace TermReader

/-- The letter x, once more than the given number of times. -/
def Token.repeated (n : Nat) : Token := String.ofList ('x' :: List.replicate n 'x')

theorem Token.isIdentifier_repeated (n : Nat) : (repeated n).isIdentifier = true := by
  have hletter : isLetter 'x' = true := by decide
  simp [repeated, isIdentifier, identifierChars, hletter]

theorem Token.repeated_injective : Function.Injective repeated := by
  intro m n heq
  have hlength := congrArg (fun t => t.toList.length) heq
  simpa [repeated] using hlength

/-- There is always a name that is neither known nor in use. -/
theorem Context.exists_fresh (ctx : Context) (tokens : List Token) :
    ∃ g, ctx.Fresh g ∧ g ∉ tokens := by
  have hinfinite := Set.infinite_range_of_injective Token.repeated_injective
  obtain ⟨g, ⟨n, rfl⟩, hg⟩ := hinfinite.exists_notMem_finset
    (tokens ++ (Token.constants ++ NameTable.all.flatMap ctx.names)).toFinset
  simp only [List.mem_toFinset, List.mem_append, not_or] at hg
  obtain ⟨htokens, hconstants, hnames⟩ := hg
  refine ⟨_, ⟨Token.isIdentifier_repeated n, hconstants, fun table hname => hnames ?_⟩, htokens⟩
  exact List.mem_flatMap.2 ⟨table, by cases table <;> decide, hname⟩

/-- A dimension stands behind an angle bracket. -/
theorem Dimension.angle_mem {ctx : Context} {tokens ts : List Token}
    (h : Dimension ctx tokens ts) : "<" ∈ tokens := by
  induction h with
  | first _ h => exact h.subset (by simp)
  | next _ _ ih => exact ih

namespace Grammar

/-- What is accepted is accepted after splitting. A fresh name stands for all calls without
arguments in between, so that no name has two uses where the derivation is read. -/
theorem exists_read_split {ctx : Context} {tokens : List Token} {x : Term} (hctx : ctx.WellNamed)
    (hseparable : Separable ctx tokens) (h : read ctx .terms tokens () = .ok x ()) :
    ∃ y, read ctx .terms (Token.split ctx tokens) () = .ok y () := by
  obtain ⟨g, hfresh, hunused⟩ := ctx.exists_fresh (Token.split ctx tokens)
  have hsep : Separation ctx g tokens := ⟨hctx, hfresh, hunused, hseparable⟩
  have hread := (read_eq_ok_iff ctx tokens x).1 h
  have himage : Loose ctx g .term tokens [Token.endMark] :=
    hread.image hsep (List.suffix_refl tokens)
  obtain ⟨u, x', hderives, hleads⟩ := himage
  have hrenamed : Renamed ctx g (u ++ [Token.endMark]) (Token.split ctx tokens) :=
    hleads.carries _ (Carries.close hsep (by decide) [] .nil)
  have hcomplete := Derives.complete (hctx.apart hfresh) (Context.nullaryApart_apart hfresh)
  obtain ⟨y, hy⟩ := (hcomplete _).alone (c := [Token.endMark]) (Nat.lt_succ_self _) hderives
    (Phrase.closes_of_mem _ (t := Token.endMark) (by decide))
  obtain ⟨z, rest, hz, -, hrest⟩ := hrenamed.reads hctx hfresh hy
  obtain ⟨after, rfl, hafter⟩ := hrest.symbol hfresh (by decide)
  cases hafter
  exact ⟨z, (read_eq_ok_iff ctx _ z).2 hz⟩

/-- An operand by itself is accepted. -/
theorem read_leaf {ctx : Context} {t : Token} {l : Leaf} (hctx : ctx.WellNamed)
    (ht : ctx.opening t = .leaf l) : read ctx .terms [t, Token.endMark] () = .ok (.leaf l) () := by
  have hread : Reads ctx (.one .primary) [t, Token.endMark] (.leaf l) [Token.endMark] := .leaf ht
  have hend : Phrase.term.Stops Token.endMark := .of_mem (by decide)
  exact (read_eq_ok_iff ctx _ _).2 (hread.climb hctx .primary_term hend)

end Grammar

namespace Expression

variable {ρ : Type} {ctx : Context} {chooser : Chooser ρ} {source : String} {random : ρ}

/-- Splitting changes the tokens and no draw. -/
theorem prepare_split (ctx : Context) (chooser : Chooser ρ) (source : String) (random : ρ) :
    prepare ctx true chooser source random =
      (⟨(prepare ctx false chooser source random).1.scanned,
        Token.split ctx (prepare ctx false chooser source random).1.tokens,
        (prepare ctx false chooser source random).1.choices⟩,
        (prepare ctx false chooser source random).2) := by
  have hgroups : ∀ g, .group g ∈ Token.segments (Token.scan source) →
      ∀ op ∈ g.operators, Token.isArithmetic op = true :=
    fun _ => Token.isArithmetic_of_mem_segments
  simp only [prepare, Token.resolve, if_true, Bool.false_eq_true, if_false, Token.segments_split,
    Token.resolveSegments_split ctx chooser hgroups]

/-- An expression that is accepted unsplit is accepted split, with the same draws, if its
tokens may be taken apart where they stand. -/
theorem parse_split_of_separable (hctx : ctx.WellNamed)
    (hseparable : Separable ctx (prepare ctx false chooser source random).1.tokens) {x : Term}
    (h : (parse ctx .terms false chooser source random ()).result = .ok x ()) :
    (∃ y, (parse ctx .terms true chooser source random ()).result = .ok y ()) ∧
      (parse ctx .terms true chooser source random ()).prepared.choices =
        (parse ctx .terms false chooser source random ()).prepared.choices ∧
      (parse ctx .terms true chooser source random ()).random =
        (parse ctx .terms false chooser source random ()).random := by
  have hread : Grammar.read ctx .terms (prepare ctx false chooser source random).1.tokens () =
      .ok x () := h
  obtain ⟨y, hy⟩ := Grammar.exists_read_split hctx hseparable hread
  unfold parse
  rw [prepare_split]
  exact ⟨⟨y, hy⟩, rfl, rfl⟩

/-- A name in front of an index and a multiple of the imaginary unit may be taken apart. -/
theorem separable_indexed_name :
    Separable .standard ["ab", "[", "1", "]", "+", "3i", Token.endMark] := by
  refine ⟨?_, ?_, ?_⟩
  · have hwhole : ∀ t ∈ ["ab", "[", "1", "]", "+", "3i", Token.endMark],
        Token.realChars t.toList.dropLast = false := by decide
    have hcases : ∀ t ∈ ["ab", "[", "1", "]", "+", "3i", Token.endMark],
        t = "ab" ∨ Token.isUnknownName .standard t = false := by decide
    refine fun t ht => ⟨fun _ => hwhole t ht, fun hunknown c hc => ?_⟩
    rcases hcases t ht with rfl | hknown
    · have hletter : c = 'a' ∨ c = 'b' := by simpa using hc
      rcases hletter with rfl | rfl
      · exact ⟨by decide, by decide⟩
      · exact ⟨by decide, by decide⟩
    · rw [hknown] at hunknown
      cases hunknown
  · intro ts h
    exact absurd h.angle_mem (by decide)
  · intro t ts y rest hts _ hread hlead
    obtain ⟨-, hbehind⟩ : t = "ab" ∧ ts = ["1", "]", "+", "3i", Token.endMark] := by
      simpa [List.suffix_cons_iff, Token.endMark] using hts
    have hmem : "[" ∈ rest := by
      rw [eq_cons_of_lead hlead (by decide)]
      exact List.mem_cons_self
    have hnone : "[" ∉ ts := by
      rw [hbehind]
      decide
    exact hnone (hread.suffix.subset hmem)

/-- The same tokens, with an operator that is drawn. -/
theorem parse_split_indexed_name :
    (∃ y, (parse .standard .terms true .first "ab[1]\x7b+|-\x7d3i" () ()).result = .ok y ()) ∧
      (parse .standard .terms true .first "ab[1]\x7b+|-\x7d3i" () ()).prepared.choices =
        (parse .standard .terms false .first "ab[1]\x7b+|-\x7d3i" () ()).prepared.choices ∧
      (parse .standard .terms true .first "ab[1]\x7b+|-\x7d3i" () ()).random =
        (parse .standard .terms false .first "ab[1]\x7b+|-\x7d3i" () ()).random := by
  have htokens : (prepare .standard false .first "ab[1]\x7b+|-\x7d3i" ()).1.tokens =
      ["ab", "[", "1", "]", "+", "3i", Token.endMark] := by cbv
  have hseparable := separable_indexed_name
  rw [← htokens] at hseparable
  have hvalue : (parse .standard .terms false .first "ab[1]\x7b+|-\x7d3i" () ()).result =
      .ok (.node "+" [.node "index1" [.leaf (.var "ab"), .leaf (.int 1)] [],
        .leaf (.complex (.int 0) (.int 3))] []) () := by cbv
  exact parse_split_of_separable Context.wellNamed_standard hseparable hvalue

/-- Each condition is needed: a digit in a name, a fraction in front of the imaginary unit
and a letter that is a function are no factors, a dimension is no product, and only one
index may follow a factor. -/
theorem split_rejects_accepted :
    ((parse .standard .terms false .first "x1" () ()).result = .ok (.leaf (.var "x1")) () ∧
      (parse .standard .terms true .first "x1" () ()).result =
        .error (.rejected ⟨.trailingTokens, "1", 1, none⟩) ()) ∧
    ((parse .standard .terms false .first "1.5i" () ()).result =
        .ok (.leaf (.complex (.int 0) (.real (Token.realValue "1.5".toList)))) () ∧
      (parse .standard .terms true .first "1.5i" () ()).result =
        .error (.rejected ⟨.trailingTokens, ".5i", 1, none⟩) ()) ∧
    ((parse ⟨"b", fun | .unary => ["b"] | _ => []⟩ .terms false .first "ab" () ()).result =
        .ok (.leaf (.var "ab")) () ∧
      (parse ⟨"b", fun | .unary => ["b"] | _ => []⟩ .terms true .first "ab" () ()).result =
        .error (.rejected ⟨.unexpectedEnd, Token.endMark, 2, none⟩) ()) ∧
    ((parse .standard .terms false .first "eye<ab>()" () ()).result =
        .ok (.node "eye" [] [.leaf (.var "ab")]) () ∧
      (parse .standard .terms true .first "eye<ab>()" () ()).result =
        .error (.rejected ⟨.expectedAngle, "b", 3, none⟩) ()) ∧
    ((parse .standard .terms false .first "sin ab[1][2]" () ()).result =
        .ok (.node "index1" [.node "sin" [.node "index1" [.leaf (.var "ab"), .leaf (.int 1)] []] [],
          .leaf (.int 2)] []) () ∧
      (parse .standard .terms true .first "sin ab[1][2]" () ()).result =
        .error (.rejected ⟨.trailingTokens, "[", 6, none⟩) ()) := by
  have hfraction : (parse .standard .terms false .first "1.5i" () ()).result =
      .ok (.leaf (.complex (.int 0) (.real (Token.realValue "1.5".toList)))) () := by
    have htokens : (prepare .standard false .first "1.5i" ()).1.tokens =
        ["1.5i", Token.endMark] := by cbv
    have hopening : Context.standard.opening "1.5i" =
        .leaf (.complex (.int 0) (.real (Token.realValue "1.5".toList))) :=
      Context.opening_of_isImaginary (by rfl) fun h => absurd h Bool.false_ne_true
    change Grammar.read .standard .terms (prepare .standard false .first "1.5i" ()).1.tokens () = _
    rw [htokens]
    exact Grammar.read_leaf Context.wellNamed_standard hopening
  exact ⟨⟨by cbv, by cbv⟩, ⟨hfraction, by cbv⟩, ⟨by cbv, by cbv⟩, ⟨by cbv, by cbv⟩,
    ⟨by cbv, by cbv⟩⟩

end Expression

end TermReader
