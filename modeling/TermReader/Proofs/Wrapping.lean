import TermReader.Proofs.Scanning
import TermReader.Proofs.Pieces
import TermReader.Proofs.Surroundings
import TermReader.Expression

/-!
Expressions with delimiters around them. A delimiter in front of an expression or behind it is
scanned as a token of its own, unless it forms an operator with the character next to it. The
other passes work on what stands between the delimiters as if it stood alone: splitting leaves
delimiters whole, and no group reaches beyond a closing brace of its own.
-/

namespace TermReader

namespace Token

section Scanning

variable {d : Char}

theorem scanFrom_delimiter (hd : isDelimiter d = true) (pending : List Char) {cs : List Char}
    (hjoin : ∀ b ∈ cs.head?, isCompound d b = false) :
    scanFrom pending (d :: cs) = flush pending ++ [d] :: scanFrom [] cs := by
  obtain ⟨hblank, -⟩ := of_isDelimiter hd
  cases cs with
  | nil => simp [scanFrom, hblank, hd, flush]
  | cons b cs => simp [scanFrom, hblank, hd, hjoin b rfl]

/-- A word ends before a blank and before a delimiter. -/
theorem scanFrom_flush (hd : joinsWord d = false) (pending cs : List Char) :
    scanFrom pending (d :: cs) = flush pending ++ scanFrom [] (d :: cs) := by
  by_cases hblank : isBlank d = true
  · rw [scanFrom_blank hblank, scanFrom_blank hblank []]
    rfl
  · have hdelimiter : isDelimiter d = true := by simpa [joinsWord, hblank] using hd
    cases cs with
    | nil => simp [scanFrom, hblank, hdelimiter, flush]
    | cons b cs => by_cases hjoin : isCompound d b = true <;>
        simp [scanFrom, hblank, hdelimiter, hjoin, flush]

/-- A blank or a delimiter separates an expression from what follows, if it forms no operator
with the character in front of it. -/
theorem scanFrom_append (hd : joinsWord d = false) (pending : List Char) {cs : List Char}
    (hjoin : ∀ a ∈ cs.getLast?, isCompound a d = false) (ds : List Char) :
    scanFrom pending (cs ++ d :: ds) = scanFrom pending cs ++ scanFrom [] (d :: ds) := by
  fun_induction scanFrom pending cs with
  | case1 pending => exact scanFrom_flush hd pending ds
  | case2 pending a ha => simp [scanFrom, ha]
  | case3 pending a ha hdelimiter =>
    have hjoin' : isCompound a d = false := hjoin a rfl
    simp [scanFrom, ha, hdelimiter, hjoin']
  | case4 pending a ha hdelimiter =>
    have hflush := scanFrom_flush hd (a :: pending) ds
    simpa [scanFrom, ha, hdelimiter] using hflush
  | case5 pending a b rest ha ih =>
    have hrest := ih (by simpa using hjoin)
    simp only [List.cons_append] at hrest ⊢
    simp [scanFrom, ha, hrest]
  | case6 pending a b rest ha hdelimiter hcompound ih =>
    have hrest := ih fun c hc => hjoin c (by simp [List.getLast?_cons, Option.mem_def.1 hc])
    simp [scanFrom, ha, hdelimiter, hcompound, hrest]
  | case7 pending a b rest ha hdelimiter hcompound ih =>
    have hrest := ih (by simpa using hjoin)
    simp only [List.cons_append] at hrest ⊢
    simp [scanFrom, ha, hdelimiter, hcompound, hrest]
  | case8 pending a b rest ha hdelimiter ih =>
    have hrest := ih (by simpa using hjoin)
    simp only [List.cons_append] at hrest ⊢
    simp [scanFrom, ha, hdelimiter, hrest]

/-- A delimiter behind an expression is a token of its own, if it forms no operator. -/
theorem scanFrom_append_delimiter (hd : isDelimiter d = true) (pending : List Char)
    {cs : List Char} (hjoin : ∀ a ∈ cs.getLast?, isCompound a d = false) :
    scanFrom pending (cs ++ [d]) = scanFrom pending cs ++ [[d]] := by
  have hseparates : joinsWord d = false := by simp [joinsWord, hd]
  rw [scanFrom_append hseparates pending hjoin, scanFrom_delimiter hd [] (by simp)]
  rfl

end Scanning

section Groups

variable {u v : List Token}

/-- A group has a closing brace behind its first operator. -/
theorem Alternatives.read?_eq_none_of_notMem {tokens : List Token}
    (h : "\x7d" ∉ tokens.tail) : read? tokens = none := by
  fun_induction read? tokens with
  | case1 => rfl
  | case2 op rest => exact absurd List.mem_cons_self h
  | case3 op rest _ hbrace =>
    have hmem := List.mem_of_mem_head? (Option.mem_def.2 hbrace)
    exact absurd (List.mem_cons_of_mem _ hmem) h
  | case4 op rest _ _ _ ih =>
    have hnone := ih fun hmem => h (List.mem_cons_of_mem _ (List.mem_of_mem_tail hmem))
    rw [hnone]
    rfl
  | case5 => rfl
  | case6 => rfl

/-- No group reaches into tokens without a closing brace. -/
theorem Alternatives.read?_append (hv : "\x7d" ∉ v) :
    read? (u ++ v) = (read? u).map fun r => (r.1, r.2 ++ v) := by
  fun_induction read? u with
  | case1 op sep rest hop => simp [read?, hop]
  | case2 op rest hop => simp [read?, hop]
  | case3 op rest hop hbrace =>
    obtain ⟨rest, rfl⟩ := List.head?_eq_some_iff.1 hbrace
    simp [read?, hop]
  | case4 op rest hop hbrace _ ih =>
    have hbrace' : (rest ++ v).head? ≠ some "\x7d" := by
      cases rest with
      | nil => exact fun h => hv (List.mem_of_mem_head? (Option.mem_def.2 h))
      | cons t rest => exact hbrace
    rw [List.cons_append, List.cons_append, read?, if_neg hop, if_neg (by decide), if_pos rfl,
      if_neg hbrace', ih, Option.map_map, Option.map_map]
    rfl
  | case5 op sep rest hop hbrace hsep => simp [read?, hop, hbrace, hsep]
  | case6 tokens hshort =>
    refine read?_eq_none_of_notMem ?_
    rcases tokens with _ | ⟨op, _ | ⟨sep, rest⟩⟩
    · exact fun h => hv (List.mem_of_mem_tail h)
    · exact hv
    · exact absurd rfl (hshort op sep rest)

theorem segments_append (hv : "\x7d" ∉ v) : segments (u ++ v) = segments u ++ segments v := by
  fun_induction segments u with
  | case1 => rfl
  | case2 rest g after hread ih =>
    have hread' : Alternatives.read? (rest ++ v) = some (g, after ++ v) := by
      rw [Alternatives.read?_append hv, hread]
      rfl
    rw [List.cons_append, segments_group hread', ih, List.cons_append]
  | case3 rest hread ih =>
    have hread' : Alternatives.read? (rest ++ v) = none := by
      rw [Alternatives.read?_append hv, hread]
      rfl
    rw [List.cons_append, segments_brace hread', ih, List.cons_append]
  | case4 t rest ht ih => rw [List.cons_append, segments_cons ht, ih, List.cons_append]

/-- Without a brace in front of it nothing is a group. -/
theorem segments_literals_append (hu : "\x7b" ∉ u) (ts : List Token) :
    segments (u ++ ts) = u.map .literal ++ segments ts := by
  induction u with
  | nil => rfl
  | cons t u ih =>
    have ht : t ≠ "\x7b" := fun h => hu (h ▸ List.mem_cons_self)
    rw [List.cons_append, segments_cons ht, ih (mt (List.mem_cons_of_mem _) hu), List.map_cons,
      List.cons_append]

theorem segments_literals (hu : "\x7b" ∉ u) : segments u = u.map .literal := by
  have happend := segments_literals_append hu []
  rwa [List.append_nil, segments, List.append_nil] at happend

variable {ρ : Type} (chooser : Chooser ρ)

/-- Nothing is drawn for single tokens behind others, and they stay as they are. -/
theorem resolveSegments_append_literals (parts : List Segment) (v : List Token) (state : ρ) :
    resolveSegments chooser (parts ++ v.map .literal) state =
      (⟨(resolveSegments chooser parts state).1.tokens ++ v,
        (resolveSegments chooser parts state).1.choices⟩,
        (resolveSegments chooser parts state).2) := by
  fun_induction resolveSegments chooser parts state with
  | case1 state => simpa [resolveSegments] using resolveSegments_literals_append chooser v [] state
  | case2 t rest state later final hlater ih =>
    rw [hlater] at ih
    rw [List.cons_append, resolveSegments, ih]
    rfl
  | case3 g rest state i next hdraw later final hlater ih =>
    rw [hlater] at ih
    rw [List.cons_append, resolveSegments, hdraw]
    dsimp only
    rw [ih]
    rfl

/-- Tokens around others stay as they are, and the others are resolved as if they stood alone. -/
theorem resolve_surrounded (hu : "\x7b" ∉ u) (hv : "\x7b" ∉ v) (hv' : "\x7d" ∉ v)
    (ts : List Token) (state : ρ) :
    resolve chooser (u ++ (ts ++ v)) state =
      (⟨u ++ ((resolve chooser ts state).1.tokens ++ v), (resolve chooser ts state).1.choices⟩,
        (resolve chooser ts state).2) := by
  have hsegments : segments (u ++ (ts ++ v)) =
      u.map .literal ++ (segments ts ++ v.map .literal) := by
    rw [segments_literals_append hu, segments_append hv', segments_literals hv]
  unfold resolve
  rw [hsegments, resolveSegments_literals_append, resolveSegments_append_literals]

end Groups

theorem split_of_whole {ctx : Context} {u : List Token} (hu : ∀ t ∈ u, t.Whole ctx) :
    split ctx u = u := by
  induction u with
  | nil => rfl
  | cons t u ih =>
    obtain ⟨ht, hu⟩ := List.forall_mem_cons.1 hu
    have hrest := ih hu
    unfold split Whole at *
    rw [List.flatMap_cons, ht, hrest, List.singleton_append]

end Token

namespace Expression

section Processing

variable {ρ : Type} (ctx : Context) (splits : Bool) (chooser : Chooser ρ) (random : ρ)
  {source : String}

/-- What becomes of words that are split, if that is wanted, and whose groups are resolved. -/
def resolution (words : List Token) : Token.Resolution × ρ :=
  Token.resolve chooser (if splits then Token.split ctx words else words) random

/-- Words that splitting leaves whole are split off from the others before groups are resolved. -/
theorem prepare_of_whole {u w v : List Token} (hwords : Token.words source = u ++ (w ++ v))
    (hu : ∀ t ∈ u, t.Whole ctx) (hv : ∀ t ∈ v, t.Whole ctx) :
    let resolved := Token.resolve chooser
      (u ++ ((if splits then Token.split ctx w else w) ++ (v ++ [Token.endMark]))) random
    prepare ctx splits chooser source random =
      (⟨Token.scan source, resolved.1.tokens, resolved.1.choices⟩, resolved.2) := by
  have hmark : Token.endMark.Whole ctx := Token.IsSign.whole (by decide)
  have hend : ∀ t ∈ v ++ [Token.endMark], t.Whole ctx := by
    simpa [or_imp, forall_and] using And.intro hv hmark
  have hscan : Token.scan source = u ++ (w ++ (v ++ [Token.endMark])) := by
    rw [Token.scan, hwords, List.append_assoc, List.append_assoc]
  have hsplit : (if splits then Token.split ctx (Token.scan source) else Token.scan source) =
      u ++ ((if splits then Token.split ctx w else w) ++ (v ++ [Token.endMark])) := by
    rw [hscan]
    split
    · rw [Token.split, List.flatMap_append, List.flatMap_append]
      exact congrArg₂ _ (Token.split_of_whole hu) (congrArg _ (Token.split_of_whole hend))
    · rfl
  unfold prepare
  dsimp only
  rw [hsplit]

/-- Whole words without braces around other words are processed to themselves, and the other
words as if they stood alone, with the same draws. -/
theorem prepare_surrounded {u w v : List Token} (hwords : Token.words source = u ++ (w ++ v))
    (hu : ∀ t ∈ u, t.Whole ctx) (hv : ∀ t ∈ v, t.Whole ctx) (hopen : "\x7b" ∉ u)
    (hopen' : "\x7b" ∉ v) (hclose : "\x7d" ∉ v) :
    let resolved := resolution ctx splits chooser random w
    prepare ctx splits chooser source random =
      (⟨Token.scan source, u ++ (resolved.1.tokens ++ (v ++ [Token.endMark])),
        resolved.1.choices⟩, resolved.2) := by
  have hopen'' : "\x7b" ∉ v ++ [Token.endMark] := by simpa using ⟨hopen', by decide⟩
  have hclose' : "\x7d" ∉ v ++ [Token.endMark] := by simpa using ⟨hclose, by decide⟩
  rw [prepare_of_whole ctx splits chooser random hwords hu hv,
    Token.resolve_surrounded chooser hopen hopen'' hclose']
  rfl

/-- Without anything around it a source is processed word by word. -/
theorem prepare_words (source : String) :
    let resolved := resolution ctx splits chooser random (Token.words source)
    prepare ctx splits chooser source random =
      (⟨Token.scan source, resolved.1.tokens ++ [Token.endMark], resolved.1.choices⟩,
        resolved.2) :=
  prepare_surrounded (u := []) (v := []) ctx splits chooser random (List.append_nil _).symm
    (List.forall_mem_nil _) (List.forall_mem_nil _) List.not_mem_nil List.not_mem_nil
    List.not_mem_nil

end Processing

section Accepted

variable {ρ : Type} {ctx : Context} {splits : Bool} {chooser : Chooser ρ} {source text : String}
  {random : ρ} {x y : Term}

/-- The words of a source as they are processed. -/
def processed (ctx : Context) (splits : Bool) (chooser : Chooser ρ) (random : ρ)
    (source : String) : List Token :=
  (resolution ctx splits chooser random (Token.words source)).1.tokens

/-- The processed words of an accepted source are read in any brackets. -/
theorem readable_of_parse
    (h : (parse ctx .terms splits chooser source random ()).result = .ok x ()) :
    Readable ctx .term (processed ctx splits chooser random source) x := by
  unfold parse at h
  rw [prepare_words] at h
  exact Grammar.readable_of_read h

/-- The text has the value `y`, and the draws that are made for it are those of the source. -/
structure Extends (ctx : Context) (splits : Bool) (chooser : Chooser ρ) (random : ρ)
    (source text : String) (y : Term) : Prop where
  result : (parse ctx .terms splits chooser text random ()).result = .ok y ()
  choices : (parse ctx .terms splits chooser text random ()).prepared.choices =
    (parse ctx .terms splits chooser source random ()).prepared.choices
  random : (parse ctx .terms splits chooser text random ()).random =
    (parse ctx .terms splits chooser source random ()).random

/-- A phrase that is read in what becomes of the text, with the draws of the source. -/
theorem Extends.of_prepare {tokens : List Token} {p : Phrase} (hctx : ctx.WellNamed)
    (hprepare : prepare ctx splits chooser text random =
      (⟨Token.scan text, tokens,
        (resolution ctx splits chooser random (Token.words source)).1.choices⟩,
        (resolution ctx splits chooser random (Token.words source)).2))
    (h : Reads ctx (.one p) tokens y [Token.endMark]) (hp : p.Under .term) :
    Extends ctx splits chooser random source text y := by
  have hread : Grammar.read ctx .terms tokens () = .ok y () :=
    (Grammar.read_eq_ok_iff ctx _ y).2 (h.climb hctx hp (.of_mem (by decide)))
  constructor <;> unfold parse <;> rw [hprepare]
  · exact hread
  · rw [prepare_words]
  · rw [prepare_words]

/-- Whole words without braces around a source are read around its processed words. -/
theorem Extends.of_words {u v : List Token} {p : Phrase} (hctx : ctx.WellNamed)
    (hwords : Token.words text = u ++ (Token.words source ++ v)) (hu : ∀ t ∈ u, t.Whole ctx)
    (hv : ∀ t ∈ v, t.Whole ctx) (hopen : "\x7b" ∉ u) (hopen' : "\x7b" ∉ v)
    (hclose : "\x7d" ∉ v)
    (h : Reads ctx (.one p)
      (u ++ (processed ctx splits chooser random source ++ (v ++ [Token.endMark]))) y
      [Token.endMark])
    (hp : p.Under .term) : Extends ctx splits chooser random source text y :=
  .of_prepare hctx (prepare_surrounded ctx splits chooser random hwords hu hv hopen hopen' hclose)
    h hp

/-- The empty source is not accepted. -/
theorem toList_ne_nil_of_parse
    (h : (parse ctx .terms splits chooser source random ()).result = .ok x ()) :
    source.toList ≠ [] := by
  intro hnil
  have hwords : Token.words source = [] := by
    unfold Token.words
    rw [hnil]
    rfl
  have hread := readable_of_parse h [Token.endMark] (.of_mem (by decide))
  refine hread.prefix_ne_nil ?_
  rw [processed, hwords]
  cases splits <;>
    simp [resolution, Token.split, Token.resolve, Token.segments, Token.resolveSegments]

end Accepted

end Expression

end TermReader
