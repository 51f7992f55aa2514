import TermReader.Proofs.Begins
import TermReader.Proofs.BuilderIndependence
import TermReader.Proofs.Brackets
import TermReader.Proofs.Conversion
import TermReader.Proofs.Lossless
import TermReader.Proofs.Replies

/-!
Numerals are converted exactly, and converting them is all that can fail besides a rejection, where
there is room for the calls. An integer numeral is read back as the number it is the numeral of. The
conversions of text to numbers are partial, and all that reading gives them is accepted, except for
integer numerals beyond the digit limit; these fail exactly where the reader comes to begin a
primary phrase in front of one.
-/

namespace TermReader

namespace Token

section Printing

theorem exists_leadingDigit {n : Nat} (hn : 0 < n) :
    ∃ c cs, Nat.toDigits 10 n = c :: cs ∧ isLeadingDigit c = true := by
  induction n using Nat.strong_induction_on with
  | h n ih =>
  by_cases hlt : n < 10
  · rw [Nat.toDigits_of_lt_base hlt]
    refine ⟨n.digitChar, [], rfl, ?_⟩
    interval_cases n <;> decide
  · obtain ⟨c, cs, hdigits, hc⟩ := ih (n / 10) (by omega) (by omega)
    rw [Nat.toDigits_of_base_le (by decide) (Nat.le_of_not_lt hlt), hdigits]
    exact ⟨c, _, rfl, hc⟩

theorem isInteger_toString (n : Nat) : isInteger (toString n) = true := by
  rw [isInteger, Nat.toString_eq_ofList_toDigits, String.toList_ofList]
  by_cases hn : n = 0
  · subst hn
    rfl
  · obtain ⟨c, cs, hdigits, hc⟩ := exists_leadingDigit (Nat.pos_of_ne_zero hn)
    have hcs : cs.all Char.isDigit = true := by
      rw [List.all_eq_true]
      intro d hd
      have hmem := List.mem_cons_of_mem c hd
      exact Nat.isDigit_of_mem_toDigits (by decide) (by decide) (hdigits ▸ hmem)
    rw [hdigits, integerChars, hc, hcs]
    exact Bool.or_true _

theorem natValue_toString (n : Nat) : natValue (toString n).toList = n := by
  rw [Nat.toString_eq_ofList_toDigits, String.toList_ofList]
  exact Nat.ofDigitChars_ten_toDigits

end Printing

/-- An expression that is one numeral without letters has one token. -/
theorem tokens_prepare_integer {ρ : Type} {t : Token} (h : t.isInteger = true) (ctx : Context)
    (splits : Bool) (chooser : Chooser ρ) (random : ρ) :
    (Expression.prepare ctx splits chooser t random).1.tokens = [t, endMark] := by
  have hword := isWord_of_isInteger h
  have hscan : scan t = [t, endMark] := by
    have hwords := words_intercalate (List.forall_mem_singleton.2 hword.scannable)
    rw [String.intercalate_singleton] at hwords
    rw [scan, hwords]
    rfl
  have hsplit : split ctx [t, endMark] = [t, endMark] := by
    have hend : Whole ctx endMark := IsSign.whole (by decide)
    rw [split, List.flatMap_cons, whole_of_isInteger h, List.flatMap_singleton, hend]
    rfl
  have hbrace : "\x7b" ∉ [t, endMark] := by
    have hne : "\x7b" ≠ t := by
      rintro rfl
      cases h
    simp [hne, endMark]
  have hresolve := tokens_resolve_append chooser hbrace [] random
  rw [List.append_nil] at hresolve
  unfold Expression.prepare
  cases splits
  · simpa [hscan, resolve, segments, resolveSegments] using hresolve
  · simpa [hscan, hsplit, resolve, segments, resolveSegments] using hresolve

end Token

namespace Grammar

variable {σ τ : Type} {ctx : Context} {b : Builder σ τ} {c c' : Cursor} {s s' : σ} {x : τ}

/-- What has been read up to the end mark is read as any looser phrase. -/
theorem bare_eq_ok_of_under {p q : Phrase} (h : p.Under q) (hminus : c.lookahead ≠ "-")
    (hnot : c.lookahead ≠ "!") (hend : c'.lookahead = Token.endMark)
    (hp : (phrase ctx b p c).bare s = .ok (x, c') s') :
    (phrase ctx b q c).bare s = .ok (x, c') s' := by
  have hseries {k : Series} (hk : (phrase ctx b k.operand c).bare s = .ok (x, c') s') :
      (series ctx b k c).bare s = .ok ((x, []), c') s' := by
    have hmore : (more ctx b k c').bare s' = .ok ([], c') s' := by
      rw [bare_more, hend, k.joint?_endMark]
      rfl
    rw [bare_series, Reading.andThen_of_bare_ok hk, Reading.andThen_of_bare_ok hmore]
    rfl
  induction h with
  | refl => exact hp
  | tier _ ih =>
    rw [bare_tier, Reading.andThen_of_bare_ok ih, if_neg fun hop => Tier.ne_endMark hop hend]
    rfl
  | sum _ ih =>
    rw [bare_sum, Reading.andThen_of_bare_ok (hseries (k := .summands) ih)]
    rfl
  | product _ ih =>
    rw [bare_product, Reading.andThen_of_bare_ok (hseries (k := .factors) ih)]
    rfl
  | power _ ih =>
    rw [bare_power, Reading.andThen_of_bare_ok ih, hend, if_neg (by decide)]
    rfl
  | unary _ ih =>
    rw [bare_unary, if_neg hminus, if_neg hnot, Reading.andThen_of_bare_ok ih, indexed, hend,
      if_neg (by decide)]
    rfl

/-- A token that opens nothing is rejected where it stands in front. -/
theorem read_unopened {t : Token} {rest : List Token} (h : ctx.opening t = .none)
    (hminus : t ≠ "-") (hnot : t ≠ "!") (hend : t ≠ Token.endMark) (s : σ) :
    read ctx b (t :: rest) s = .error (.rejected ⟨.unexpectedToken, t, 0, none⟩) s := by
  have hprimary : (phrase ctx b .primary ⟨0, t :: rest⟩).bare s =
      .error (.rejected ⟨.unexpectedToken, t, 0, none⟩) s := by
    rw [bare_primary, if_neg (List.cons_ne_nil _ _)]
    change opened ctx b (ctx.opening t) ⟨0, t :: rest⟩ s = _
    rw [h, opened]
    change (throw ((Cursor.mk 0 (t :: rest)).reject
      (if t = Token.endMark then .unexpectedEnd else .unexpectedToken) none) : Reading σ _) s = _
    rw [if_neg hend]
    rfl
  have hterm := bare_eq_error_of_under (c := ⟨0, t :: rest⟩) .primary_term hminus hnot hprimary
  rw [read_eq]
  exact Reading.andThen_of_bare_error hterm

/-- A leaf alone is read as what the builder makes of it. -/
theorem read_eq_leaf {t : Token} {l : Leaf} (h : ctx.opening t = .leaf l) (hminus : t ≠ "-")
    (hnot : t ≠ "!") (s : σ) :
    read ctx b [t, Token.endMark] s = .ok (b.leaf l s).1 (b.leaf l s).2 := by
  have hprimary : (phrase ctx b .primary ⟨0, [t, Token.endMark]⟩).bare s =
      .ok ((b.leaf l s).1, ⟨1, [Token.endMark]⟩) (b.leaf l s).2 := by
    rw [bare_primary, if_neg (List.cons_ne_nil _ _)]
    simp only [Cursor.lookahead, List.headD_cons, h]
    rfl
  have hterm := bare_eq_ok_of_under (c := ⟨0, [t, Token.endMark]⟩) .primary_term hminus hnot rfl
    hprimary
  rw [read_eq]
  exact Reading.andThen_of_bare_ok hterm

/-- Two builders fail alike. -/
theorem read_error_iff (b : Builder σ τ) (s : σ) {tokens : List Token} {e : Failure} :
    (∃ s', read ctx b tokens s = .error e s') ↔ read ctx .terms tokens () = .error e () := by
  have hb : b.Corresponds .terms (fun _ _ => True) (fun _ _ => True) :=
    ⟨fun _ _ _ _ => .ok trivial trivial, fun _ _ _ _ _ _ _ _ _ _ => .ok trivial trivial⟩
  have hmatching := agree_read ctx hb tokens s () trivial
  generalize read ctx b tokens s = r₁ at hmatching ⊢
  generalize read ctx .terms tokens () = r₂ at hmatching ⊢
  cases hmatching with
  | ok => simp
  | error => simp

end Grammar

/-- The reader begins a primary phrase at once where no sign is in front. -/
theorem reaches_self {ctx : Context} {tokens : List Token} (hminus : lead tokens ≠ "-")
    (hnot : lead tokens ≠ "!") : Reaches ctx tokens tokens := by
  have htier (t : Tier) : Begins ctx (.one (.tier t), tokens) (.one t.operand, tokens) := .left
  have hfactor : Relation.ReflTransGen (Begins ctx) (.one .sum, tokens) (.one .primary, tokens) :=
    .head (.first .sum) (.head (.first .product) (.head .base (.head (.plain hminus hnot) .refl)))
  exact .head (htier .disjunction) (.head (htier .conjunction)
    (.head (htier .equality) (.head (htier .relation) hfactor)))

namespace Expression

variable {ρ σ τ : Type} (ctx : Context) (b : Builder σ τ) (splits : Bool) (chooser : Chooser ρ)
  (random : ρ) (s : σ)

theorem ne_of_isInteger {t u : Token} (ht : t.isInteger = true) (hu : u.isInteger = false) :
    t ≠ u := by
  rintro rfl
  rw [ht] at hu
  cases hu

theorem parse_integer {n : Nat} (hn : (toString n).length ≤ Token.digitLimit) :
    (parse ctx b splits chooser (toString n) random s).result =
      .ok (b.leaf (.int n) s).1 (b.leaf (.int n) s).2 := by
  have hint := Token.isInteger_toString n
  have hopening : ctx.opening (toString n) = .leaf (.int n) := by
    rw [Context.opening_of_isInteger hint hn, Token.natValue_toString]
  have hread := Grammar.read_eq_leaf (b := b) hopening (ne_of_isInteger hint rfl)
    (ne_of_isInteger hint rfl) s
  rwa [← Token.tokens_prepare_integer hint ctx splits chooser random] at hread

theorem parse_error_iff {source : String} {d : Nat} :
    (∃ s', (parse ctx b splits chooser source random s).result = .error (.excessDigits d) s') ↔
      ∃ t rest, Reaches ctx (prepare ctx splits chooser source random).1.tokens (t :: rest) ∧
        t.Oversized d := by
  refine (Grammar.read_error_iff b s).trans (Grammar.read_eq_excess_iff.trans ⟨?_, ?_⟩)
  · rintro ⟨rest, hrest, hlead, hreach⟩
    obtain ⟨t, rest, rfl⟩ := List.exists_cons_of_ne_nil hrest
    exact ⟨t, rest, hreach, Context.opening_eq_excess_iff.1 hlead⟩
  · rintro ⟨t, rest, hreach, ht⟩
    exact ⟨t :: rest, List.cons_ne_nil t rest, Context.opening_eq_excess_iff.2 ht, hreach⟩

theorem parse_oversized {n : Nat} (hn : Token.digitLimit < (toString n).length) :
    ∃ s', (parse ctx b splits chooser (toString n) random s).result =
      .error (.excessDigits (toString n).length) s' := by
  have hint := Token.isInteger_toString n
  rw [parse_error_iff, Token.tokens_prepare_integer hint]
  refine ⟨toString n, [Token.endMark], reaches_self ?_ ?_, hn, .inl ⟨hint, rfl⟩⟩
  · exact ne_of_isInteger hint rfl
  · exact ne_of_isInteger hint rfl

end Expression

namespace Session

variable {ρ σ τ : Type} {session : Session ρ} (chooser : Chooser ρ) (b : Builder σ τ) (room : Nat)
  (splits : Option Bool) (state : σ)

/-- A numeral needs room for two tokens. -/
theorem parse_integer_result (hctx : session.context.WellNamed) (hroom : 32 ≤ room) (n : Nat) :
    (session.parse chooser b room (toString n) splits state).1.result =
      Stop.ofResult (session.parsed chooser b (toString n) splits state).result := by
  refine parse_result chooser b room _ splits state hctx ?_
  rw [parsed, Expression.parse]
  dsimp only
  rw [Token.tokens_prepare_integer (Token.isInteger_toString n)]
  exact hroom

/-- Where the session does not give up, it comes to the digit limit if the reader does. -/
theorem result_excess_iff (hctx : session.context.WellNamed) (source : String) (d : Nat) :
    let reply := (session.parse chooser b room source splits state).1
    (∃ s', reply.result = .error (.failed (.excessDigits d)) s') ↔
      (∀ s', reply.result ≠ .error .exhausted s') ∧
        ∃ t rest, Reaches session.context reply.prepared.tokens (t :: rest) ∧ t.Oversized d := by
  intro reply
  have hexcess : (∃ s', (session.parsed chooser b source splits state).result =
      .error (.excessDigits d) s') ↔ _ :=
    Expression.parse_error_iff session.context b _ chooser session.random state
  obtain ⟨-, hread | ⟨-, s', hgiven⟩⟩ := parse_reply chooser b room source splits state hctx
  · have hresult : reply.result =
        Stop.ofResult (session.parsed chooser b source splits state).result := hread
    refine Iff.trans ?_ (and_congr_right fun _ => hexcess)
    rw [hresult]
    generalize (session.parsed chooser b source splits state).result = read
    cases read <;> simp [Stop.ofResult]
  · have hresult : reply.result = .error .exhausted s' := hgiven
    rw [hresult]
    simp

/-- Integer numerals are exact, and nothing makes parsing fail but a rejection, the digit limit, and
want of room for the calls within one another, of which sixteen a token are enough. Where there is
room the digit limit makes it fail exactly if the reader comes to begin a primary phrase in front
of a numeral beyond the limit. All other conversions are accepted, and no character is looked up
beyond a token. -/
theorem parse_numerals (hctx : session.context.WellNamed) :
    let parse source := (session.parse chooser b room source splits state).1
    (32 ≤ room → ∀ n : Nat,
      ((toString n).length ≤ Token.digitLimit →
        (parse (toString n)).result = .ok (b.leaf (.int n) state).1 (b.leaf (.int n) state).2) ∧
      (Token.digitLimit < (toString n).length →
        ∃ s', (parse (toString n)).result =
          .error (.failed (.excessDigits (toString n).length)) s')) ∧
    (∀ source,
      ((∃ x s', (parse source).result = .ok x s') ∨
        (∃ r s', (parse source).result = .error (.failed (.rejected r)) s') ∨
        (∃ d s', (parse source).result = .error (.failed (.excessDigits d)) s') ∨
        room < 16 * (parse source).prepared.tokens.length ∧
          ∃ s', (parse source).result = .error .exhausted s') ∧
      ∀ d, (∃ s', (parse source).result = .error (.failed (.excessDigits d)) s') ↔
        (∀ s', (parse source).result ≠ .error .exhausted s') ∧
          ∃ t rest, Reaches session.context (parse source).prepared.tokens (t :: rest) ∧
            t.Oversized d) ∧
    (∀ t, (session.context.opening t).Converts t) ∧
      ∀ tokens, Token.split? session.context tokens =
        some (Token.split session.context tokens) := by
  intro parse
  refine ⟨fun hroom n => ?_, fun source => ⟨?_, fun d => ?_⟩, session.context.converts_opening,
    Token.split?_eq session.context⟩
  · simp only [parse, parse_integer_result chooser b room splits state hctx hroom n]
    refine ⟨fun hn => ?_, fun hn => ?_⟩
    · rw [parsed, Expression.parse_integer session.context b _ chooser _ state hn]
      rfl
    · obtain ⟨s', hs'⟩ := Expression.parse_oversized session.context b
        (splits.getD session.splits) chooser session.random state hn
      exact ⟨s', by rw [parsed, hs']; rfl⟩
  · exact result_cases chooser b room source splits state hctx
  · exact result_excess_iff chooser b room splits state hctx source d

/-- The greatest number that is converted and the least one that is not. -/
theorem parse_numerals_limit :
    let parse source := ((start .standard () true).parse .first .terms 32 source none ()).1
    (parse (toString (10 ^ Token.digitLimit - 1))).result =
        .ok (.leaf (.int (10 ^ Token.digitLimit - 1))) () ∧
      ∃ d s', (parse (toString (10 ^ Token.digitLimit))).result =
        .error (.failed (.excessDigits d)) s' := by
  have hlength (n : Nat) :
      (toString n).length ≤ Token.digitLimit ↔ n < 10 ^ Token.digitLimit := by
    rw [Nat.toString_eq_ofList_toDigits, String.length_ofList]
    exact Nat.length_toDigits_le_iff (by decide) (by decide)
  have hctx : (start Context.standard () true).context.WellNamed := Context.wellNamed_standard
  have hnumerals := (parse_numerals .first .terms 32 none () hctx).1 (Nat.le_refl 32)
  constructor
  · exact (hnumerals _).1 ((hlength _).2 (Nat.sub_one_lt (Nat.pow_pos (by decide)).ne'))
  · exact ⟨_, (hnumerals _).2 (Nat.lt_of_not_le fun h => Nat.lt_irrefl _ ((hlength _).1 h))⟩

end Session

end TermReader
