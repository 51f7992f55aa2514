import TermReader.Proofs.CallCounts
import TermReader.Proofs.Groups
import TermReader.Proofs.WellFormed

/-!
Brackets around a source that is accepted. Round ones change nothing, curly ones make a set,
square ones a vector; behind a function round ones make a call, and behind a variable square ones
an index. Curly brackets need most care, since an opening brace may start a group of alternatives
and a closing one may end a group. They never do here: in what the grammar derives, no brace is
followed by nothing but operators and bars.
-/

namespace TermReader

namespace Token

/-- The tokens that may stand between the braces of a group. -/
def isOption (t : Token) : Bool := isArithmetic t || t == "|"

/-- Behind every opening brace stands a token that stands in no group. -/
def Settled : List Token → Prop
  | [] => True
  | t :: ts => (t = "\x7b" → ∃ s ∈ ts, isOption s = false) ∧ Settled ts

namespace Settled

variable {u v : List Token} {t : Token}

theorem nil : Settled [] := trivial

theorem cons (ht : t ≠ "\x7b") (h : Settled u) : Settled (t :: u) := ⟨fun heq => absurd heq ht, h⟩

theorem append (hu : Settled u) (hv : Settled v) : Settled (u ++ v) := by
  induction u with
  | nil => exact hv
  | cons t u ih =>
    obtain ⟨ht, hu⟩ := hu
    exact ⟨fun heq => (ht heq).imp fun _ hs => ⟨List.mem_append_left _ hs.1, hs.2⟩, ih hu⟩

/-- A closing brace settles the opening one. -/
theorem braced (h : Settled u) : Settled ("\x7b" :: (u ++ ["\x7d"])) :=
  ⟨fun _ => ⟨"\x7d", by simp, by decide⟩, h.append (.cons (by decide) .nil)⟩

end Settled

theorem ne_brace_of_isOption {t : Token} (h : isOption t = true) : t ≠ "\x7b" ∧ t ≠ "\x7d" := by
  constructor <;> (rintro rfl; exact absurd h (by decide))

end Token

section Derivations

variable {ctx : Context} {i : Item} {u : List Token} {t : Token}

/-- A token that opens a phrase stands in no group, unless it is a bar, and closes none. -/
theorem Context.WellNamed.not_isOption (hctx : ctx.WellNamed) (hnone : ctx.opening t ≠ .none)
    (hbar : ctx.opening t ≠ .bar) : Token.isOption t = false ∧ t ≠ "\x7d" := by
  constructor
  · rw [Bool.eq_false_iff]
    intro h
    simp only [Token.isOption, Token.isArithmetic, Bool.or_eq_true, List.contains_iff_mem,
      List.mem_cons, List.not_mem_nil, or_false, beq_iff_eq] at h
    rcases h with (rfl | rfl | rfl | rfl) | rfl
    · exact hnone (hctx.opening_of_symbolic (by decide))
    · exact hnone (hctx.opening_of_symbolic (by decide))
    · exact hnone (hctx.opening_of_symbolic (by decide))
    · exact hnone (hctx.opening_of_symbolic (by decide))
    · exact hbar (hctx.opening_of_symbolic (by decide))
  · rintro rfl
    exact hnone (hctx.opening_of_symbolic (by decide))

/-- The first token of a phrase that stands in no group does not close one. -/
theorem Derives.exists_first (hctx : ctx.WellNamed) {x : i.Value} (h : Derives ctx i u x)
    {p : Phrase} (hi : i = .one p) (hp : p ≠ .elements) :
    ∃ s, u.find? (!Token.isOption ·) = some s ∧ s ≠ "\x7d" := by
  have hopens {o : Context.Opening} (t : Token) (ht : ctx.opening t = o) (hnone : o ≠ .none)
      (hbar : o ≠ .bar) (v : List Token) :
      ∃ s, (t :: v).find? (!Token.isOption ·) = some s ∧ s ≠ "\x7d" := by
    obtain ⟨hoption, hne⟩ := hctx.not_isOption (ht ▸ hnone) (ht ▸ hbar)
    exact ⟨t, List.find?_cons_of_pos (by simp [hoption]), hne⟩
  have happend {u : List Token} (h : ∃ s, u.find? (!Token.isOption ·) = some s ∧ s ≠ "\x7d")
      (v : List Token) : ∃ s, (u ++ v).find? (!Token.isOption ·) = some s ∧ s ≠ "\x7d" := by
    obtain ⟨s, hs, hne⟩ := h
    exact ⟨s, by rw [List.find?_append, hs, Option.some_or], hne⟩
  induction h generalizing p with
  | @single t _ _ _ ih => exact ih rfl (by cases t <;> decide)
  | @joined t _ _ _ _ _ _ _ _ ih => exact happend (ih rfl (by cases t <;> decide)) _
  | base _ ih | plain _ ih => exact ih rfl (by decide)
  | sum _ _ ih | product _ _ ih | power _ _ ih | index1 _ _ ih | index2 _ _ _ ih =>
    exact happend (ih rfl (by decide)) _
  | minus _ ih =>
    obtain ⟨s, hs, hne⟩ := ih rfl (by decide)
    exact ⟨s, by rwa [List.find?_cons_of_neg (by decide)], hne⟩
  | bar _ ih =>
    obtain ⟨s, hs, hne⟩ := happend (ih rfl (by decide)) ["|"]
    exact ⟨s, by rwa [List.find?_cons_of_neg (by decide)], hne⟩
  | not => exact ⟨"!", List.find?_cons_of_pos (by decide), by decide⟩
  | row => exact ⟨"[", List.find?_cons_of_pos (by decide), by decide⟩
  | leaf ht => exact hopens _ ht nofun nofun _
  | callNone ht | callSome ht | apply ht => exact hopens _ ht nofun nofun _
  | paren => exact ⟨"(", List.find?_cons_of_pos (by decide), by decide⟩
  | vector | matrix => exact ⟨"[", List.find?_cons_of_pos (by decide), by decide⟩
  | set => exact ⟨"\x7b", List.find?_cons_of_pos (by decide), by decide⟩
  | empty | elements => exact absurd (Item.one.inj hi).symm hp
  | stop | step | juxtaposed | noDimensions | dimensions => cases hi

/-- No token of a derivation but the brace of a set is an opening brace. -/
theorem Context.WellNamed.ne_brace (hctx : ctx.WellNamed) (h : ctx.opening t ≠ .brace) :
    t ≠ "\x7b" := by
  rintro rfl
  exact h (hctx.opening_of_symbolic (by decide))

/-- In what the grammar derives every opening brace is settled by the one that closes it. -/
theorem Derives.settled (hctx : ctx.WellNamed) {x : i.Value} (h : Derives ctx i u x) :
    Token.Settled u := by
  have htier (t : Tier) : ∀ op ∈ t.operators, op ≠ "\x7b" := by cases t <;> decide
  have hseries (k : Series) : ∀ op ∈ k.operators, op ≠ "\x7b" := by cases k <;> decide
  have hname {o : Context.Opening} {t : Token} (ht : ctx.opening t = o) (ho : o ≠ .brace) :
      t ≠ "\x7b" := hctx.ne_brace (ht ▸ ho)
  have hclose {v : List Token} (hv : Token.Settled v) (s : Token) (hs : s ≠ "\x7b") :
      Token.Settled (v ++ [s]) := hv.append (.cons hs .nil)
  induction h with
  | single _ ih | base _ ih | plain _ ih => exact ih
  | joined _ hop _ ihx ihy => exact ihx.append (.cons (htier _ _ hop) ihy)
  | power _ _ ihx ihy => exact ihx.append (.cons (by decide) ihy)
  | sum _ _ ihx ihlater | product _ _ ihx ihlater | juxtaposed _ _ _ ihx ihlater =>
    exact ihx.append ihlater
  | minus _ ih | not _ ih | vector _ _ ih | row _ ih => exact .cons (by decide) ih
  | index1 _ _ ihx ihi => exact ihx.append (.cons (by decide) (hclose ihi _ (by decide)))
  | index2 _ _ _ ihx ihi ihj =>
    exact ihx.append (.cons (by decide) (ihi.append (.cons (by decide) (hclose ihj _ (by decide)))))
  | leaf ht => exact .cons (hname ht nofun) .nil
  | paren _ ih | bar _ ih => exact .cons (by decide) (hclose ih _ (by decide))
  | matrix _ _ ihx ihlater | dimensions _ _ ihx ihlater =>
    exact .cons (by decide) (ihx.append (hclose ihlater _ (by decide)))
  | elements _ _ ihx ihlater => exact ihx.append (hclose ihlater _ (by decide))
  | @set u _ v _ _ _ ihx ihlater =>
    rw [← List.append_assoc]
    exact (ihx.append ihlater).braced
  | callNone ht _ _ ih =>
    exact .cons (hname ht nofun) (ih.append (.cons (by decide) (.cons (by decide) .nil)))
  | callSome ht _ _ _ _ ihdims ihx ihlater =>
    exact .cons (hname ht nofun)
      (ihdims.append (.cons (by decide) (ihx.append (hclose ihlater _ (by decide)))))
  | apply ht _ _ _ _ ih => exact .cons (hname ht nofun) ih
  | empty => exact .cons (by decide) .nil
  | stop | noDimensions => exact .nil
  | step hop _ _ ihx ihlater => exact .cons (hseries _ _ hop) (ihx.append ihlater)

end Derivations

namespace Token

/-- Between the braces of a group stand operators and bars. -/
theorem Alternatives.Spells.exists_options {g : Alternatives} {w : List Token}
    (h : g.Spells ("\x7b" :: w)) : ∃ m, w = m ++ ["\x7d"] ∧ ∀ t ∈ m, isOption t = true := by
  obtain ⟨hops, bar, hbar, heq⟩ := h
  refine ⟨g.spelling ++ bar, ?_, fun t ht => ?_⟩
  · rw [List.append_assoc]
    exact List.cons_injective heq
  obtain ⟨hfirst, hothers⟩ := List.forall_mem_cons.1 hops
  simp only [spelling, List.cons_append, List.mem_cons, List.mem_append, List.mem_flatMap,
    List.not_mem_nil, or_false] at ht hbar
  rcases ht with rfl | ⟨op, hop, rfl | rfl⟩ | ht
  · simp [isOption, hfirst]
  · decide
  · simp [isOption, hothers _ hop]
  · rcases hbar with rfl | rfl
    · cases ht
    · obtain rfl := List.mem_singleton.1 ht
      decide

/-- What is read as a group is also read before further tokens. -/
theorem Alternatives.read?_append_of_some {u after : List Token} {g : Alternatives}
    (h : read? u = some (g, after)) (v : List Token) : read? (u ++ v) = some (g, after ++ v) := by
  obtain ⟨w, hw, rfl⟩ := exists_spells_of_read? h
  rw [List.append_assoc]
  exact read?_of_spells hw _

/-- A closing brace completes no group behind a token that stands in none. -/
theorem Alternatives.read?_append_close {u : List Token} (h : read? u = none)
    (hu : ∃ t ∈ u, isOption t = false) (v : List Token) : read? (u ++ "\x7d" :: v) = none := by
  by_contra hsome
  obtain ⟨⟨g, after⟩, hread⟩ := Option.ne_none_iff_exists'.1 hsome
  obtain ⟨w, hw, heq⟩ := exists_spells_of_read? hread
  have hnone (after : List Token) (heq : u = w ++ after) : False := by
    rw [heq, read?_of_spells hw] at h
    cases h
  rcases List.append_eq_append_iff.1 heq with ⟨c, rfl, hc⟩ | ⟨c, rfl, -⟩
  · -- the group goes beyond `u`, so all of `u` stands between its braces
    rcases eq_or_ne c [] with rfl | hne
    · exact hnone [] (by simp)
    obtain ⟨m, hm, hoptions⟩ := hw.exists_options
    have hinside : u ++ c.dropLast = m := by
      rw [← List.dropLast_append_of_ne_nil hne, hm, List.dropLast_concat]
    obtain ⟨t, ht, hoption⟩ := hu
    rw [hoptions t (hinside ▸ List.mem_append_left _ ht)] at hoption
    cases hoption
  · exact hnone c rfl

theorem find?_options {u : List Token} (hu : ∀ t ∈ u, isOption t = true) {t : Token}
    (ht : isOption t = false) (v : List Token) : (u ++ t :: v).find? (!isOption ·) = some t := by
  have hnone : u.find? (!isOption ·) = none := by simpa [List.find?_eq_none] using hu
  rw [List.find?_append, hnone, Option.none_or, List.find?_cons_of_pos (by simp [ht])]

section Resolving

variable {ρ : Type} (chooser : Chooser ρ) {u v ts : List Token}

/-- Without a brace in front of it nothing is resolved. -/
theorem tokens_resolve_append (hu : "\x7b" ∉ u) (v : List Token) (random : ρ) :
    (resolve chooser (u ++ v) random).1.tokens = u ++ (resolve chooser v random).1.tokens := by
  unfold resolve
  rw [segments_literals_append hu, resolveSegments_literals_append]

theorem tokens_resolve_options (hu : ∀ t ∈ u, isOption t = true) (random : ρ) :
    (resolve chooser u random).1.tokens = u := by
  have happend := tokens_resolve_append chooser
    (fun hmem => (ne_brace_of_isOption (hu _ hmem)).1 rfl) [] random
  have hempty : (resolve chooser [] random).1.tokens = [] := by
    simp [resolve, segments, resolveSegments]
  rwa [hempty, List.append_nil] at happend

/-- A brace behind tokens that resolve to a term is not the end of a group that starts with them. -/
theorem read?_close_eq_none {random : ρ} {s : Token}
    (hfirst : (resolve chooser ts random).1.tokens.find? (!isOption ·) = some s)
    (hs : s ≠ "\x7d") (v : List Token) : Alternatives.read? (ts ++ "\x7d" :: v) = none := by
  by_contra hsome
  obtain ⟨⟨g, after⟩, hread⟩ := Option.ne_none_iff_exists'.1 hsome
  obtain ⟨w, hw, heq⟩ := Alternatives.exists_spells_of_read? hread
  obtain ⟨m, rfl, hm⟩ := hw.exists_options
  have hclose : (ts ++ "\x7d" :: v).find? (!isOption ·) = some "\x7d" := by
    rw [heq, List.append_assoc]
    exact find?_options hm (by decide) after
  cases hts : ts.find? (!isOption ·) with
  | none =>
    have hall : ∀ t ∈ ts, isOption t = true := by simpa [List.find?_eq_none] using hts
    rw [tokens_resolve_options chooser hall, hts] at hfirst
    cases hfirst
  | some t =>
    rw [List.find?_append, hts, Option.some_or] at hclose
    obtain rfl := Option.some.inj hclose
    obtain ⟨-, a, b, rfl, ha⟩ := List.find?_eq_some_iff_append.1 hts
    have ha' : ∀ t ∈ a, isOption t = true := by simpa using ha
    have hopen : "\x7b" ∉ a ++ ["\x7d"] := by
      simpa using fun hmem => (ne_brace_of_isOption (ha' _ hmem)).1 rfl
    rw [List.append_cons, tokens_resolve_append chooser hopen, ← List.append_cons,
      find?_options ha' (by decide)] at hfirst
    exact hs (Option.some.inj hfirst).symm

/-- A closing brace behind tokens that resolve to settled ones completes no group. -/
theorem segments_append_close (random : ρ)
    (h : Settled (resolveSegments chooser (segments ts) random).1.tokens) (v : List Token) :
    segments (ts ++ "\x7d" :: v) = segments ts ++ segments ("\x7d" :: v) := by
  fun_induction segments ts generalizing random with
  | case1 => rfl
  | case2 rest g after hread ih =>
    have hread' := Alternatives.read?_append_of_some hread ("\x7d" :: v)
    rw [List.cons_append, segments_group hread', ih _ h.2, List.cons_append]
  | case3 rest hread ih =>
    obtain ⟨hsettled, hrest⟩ := h
    have hstays : ∃ t ∈ rest, isOption t = false := by
      by_contra hall
      have hall' : ∀ t ∈ rest, isOption t = true := by simpa using hall
      obtain ⟨s, hs, hoption⟩ := hsettled rfl
      have hmem : s ∈ (resolve chooser rest random).1.tokens := hs
      rw [tokens_resolve_options chooser hall'] at hmem
      rw [hall' s hmem] at hoption
      cases hoption
    rw [List.cons_append, segments_brace (Alternatives.read?_append_close hread hstays v),
      ih random hrest, List.cons_append]
  | case4 t rest ht ih =>
    rw [List.cons_append, segments_cons ht, ih random h.2, List.cons_append]

/-- Braces around tokens that resolve to a term stay, and the tokens are resolved as if they stood
alone. -/
theorem resolve_braced {ctx : Context} (hctx : ctx.WellNamed) (random : ρ) {x : Term}
    (h : Derives ctx (.one .term) (resolve chooser ts random).1.tokens x)
    (hopen : "\x7b" ∉ v) :
    resolve chooser ("\x7b" :: (ts ++ "\x7d" :: v)) random =
      (⟨"\x7b" :: ((resolve chooser ts random).1.tokens ++ "\x7d" :: v),
        (resolve chooser ts random).1.choices⟩, (resolve chooser ts random).2) := by
  obtain ⟨s, hfirst, hs⟩ := h.exists_first hctx rfl (by decide)
  have hbehind : segments ("\x7d" :: v) = ("\x7d" :: v).map .literal :=
    segments_literals (by simpa using hopen)
  have hsegments : segments ("\x7b" :: (ts ++ "\x7d" :: v)) =
      .literal "\x7b" :: (segments ts ++ ("\x7d" :: v).map .literal) := by
    rw [segments_brace (read?_close_eq_none chooser hfirst hs v),
      segments_append_close chooser random (h.settled hctx), hbehind]
  unfold resolve
  rw [hsegments, resolveSegments, resolveSegments_append_literals]

/-- Resolving puts no opening bracket in front of a list. -/
theorem lead_resolve {random : ρ} (h : lead (resolve chooser ts random).1.tokens = "[") :
    lead ts = "[" := by
  unfold resolve at h
  cases ts with
  | nil => exact absurd h (by simp [segments, resolveSegments, lead, endMark])
  | cons t rest =>
    by_cases ht : t = "\x7b"
    · subst ht
      cases hread : Alternatives.read? rest with
      | none =>
        rw [segments_brace hread] at h
        exact absurd h (by decide : "\x7b" ≠ "[")
      | some r =>
        obtain ⟨g, after⟩ := r
        rw [segments_group hread] at h
        have hpick : g.pick (chooser.draw g.others.length random).1 = "[" := h
        have hop := Alternatives.isArithmetic_of_read? hread "[" (hpick ▸ List.get_mem _ _)
        exact absurd hop (by decide)
    · rw [segments_cons ht] at h
      exact h

end Resolving

end Token

/-- The kinds of brackets that may be put around a source. -/
inductive Bracket
  | round
  | square
  | curly
  deriving DecidableEq

namespace Bracket

def opening : Bracket → Token
  | round => "("
  | square => "["
  | curly => "\x7b"

def closing : Bracket → Token
  | round => ")"
  | square => "]"
  | curly => "\x7d"

theorem isSign (b : Bracket) : b.opening.IsSign ∧ b.closing.IsSign := by
  cases b <;> decide

/-- Round and square brackets are no part of a group. -/
theorem ne_brace {b : Bracket} (hb : b ≠ curly) :
    b.opening ≠ "\x7b" ∧ b.closing ≠ "\x7b" ∧ b.closing ≠ "\x7d" := by
  cases b with
  | curly => exact absurd rfl hb
  | round | square => decide

end Bracket

namespace Token

/-- Delimiters that form no operators are scanned as tokens of their own. -/
theorem words_between {d e : Char} (hd : isDelimiter d = true) (he : isDelimiter e = true)
    (hopen : ∀ b, isCompound d b = false) (hclose : ∀ a, isCompound a e = false)
    (source : String) :
    words (String.ofList [d] ++ source ++ String.ofList [e]) =
      String.ofList [d] :: (words source ++ [String.ofList [e]]) := by
  have hchars : (String.ofList [d] ++ source ++ String.ofList [e]).toList =
      d :: (source.toList ++ [e]) := by simp [String.toList_append]
  rw [words, hchars, scanFrom_delimiter hd [] (fun b _ => hopen b),
    scanFrom_append_delimiter he [] (fun a _ => hclose a), List.map_append, List.map_cons,
    List.map_append]
  rfl

theorem words_bracketed (b : Bracket) (source : String) :
    words (b.opening ++ source ++ b.closing) = [b.opening] ++ (words source ++ [b.closing]) := by
  have halone : ∀ d ∈ ['(', ')', '[', ']', '\x7b', '\x7d'],
      ∀ a, isCompound d a = false ∧ isCompound a d = false := by simp [isCompound]
  cases b with
  | round =>
    exact words_between (d := '(') (e := ')') (by decide) (by decide)
      (fun b => (halone _ (by decide) b).1) (fun a => (halone _ (by decide) a).2) source
  | square =>
    exact words_between (d := '[') (e := ']') (by decide) (by decide)
      (fun b => (halone _ (by decide) b).1) (fun a => (halone _ (by decide) a).2) source
  | curly =>
    exact words_between (d := '\x7b') (e := '\x7d') (by decide) (by decide)
      (fun b => (halone _ (by decide) b).1) (fun a => (halone _ (by decide) a).2) source

/-- A word ends before a delimiter. -/
theorem words_word_append {t : Token} (ht : t.IsWord) {text : String} {d : Char} {ds : List Char}
    (htext : text.toList = d :: ds) (hd : isDelimiter d = true) :
    words (t ++ text) = t :: words text := by
  have hseparates : joinsWord d = false := by simp [joinsWord, hd]
  have hword : ∀ c ∈ t.toList, joinsWord c = true := fun c hc => joinsWord_of_isPlain (ht.2 c hc)
  rw [words, words, String.toList_append, scanFrom_word hword, htext, scanFrom_flush hseparates,
    List.append_nil, flush_reverse ht.1, List.singleton_append, List.map_cons,
    String.ofList_toList]

/-- A name in front of brackets is a token of its own. -/
theorem words_name_bracketed {name : Token} (hname : name.isIdentifier = true) (b : Bracket)
    (source : String) :
    words (name ++ b.opening ++ source ++ b.closing) =
      [name, b.opening] ++ (words source ++ [b.closing]) := by
  have hassoc : name ++ b.opening ++ source ++ b.closing =
      name ++ (b.opening ++ source ++ b.closing) := by
    simp only [String.append_assoc]
  have hfront : ∃ d ds, (b.opening ++ source ++ b.closing).toList = d :: ds ∧
      isDelimiter d = true := by
    cases b
    all_goals
      simp only [Bracket.opening, Bracket.closing, String.toList_append]
      exact ⟨_, _, rfl, by decide⟩
  obtain ⟨d, ds, htext, hd⟩ := hfront
  rw [hassoc, words_word_append (isWord_of_isIdentifier hname) htext hd, words_bracketed]
  rfl

/-- Only one of the words for constants has one letter. -/
theorem notMem_constants_of_length_one {name : Token} (hlength : name.length = 1)
    (hi : name ≠ "i") : name ∉ constants := by
  have hlong : ∀ word ∈ constants, word.length = 1 → word = "i" := by decide
  exact fun hmem => hi (hlong name hmem hlength)

end Token

namespace Expression

section Bracketed

variable {ρ : Type} {ctx : Context} {splits : Bool} {chooser : Chooser ρ} {random : ρ}
  {source text : String} {x y : Term}

/-- Round and square brackets around a source, with further words in front of them, are read
around its processed words. -/
theorem Extends.of_brackets {b : Bracket} {u : List Token} {p : Phrase} (hctx : ctx.WellNamed)
    (hb : b ≠ .curly)
    (hwords : Token.words text = u ++ [b.opening] ++ (Token.words source ++ [b.closing]))
    (hwhole : ∀ t ∈ u, t.Whole ctx) (hbrace : "\x7b" ∉ u)
    (h : Reads ctx (.one p)
      (u ++ b.opening :: (processed ctx splits chooser random source ++
        [b.closing, Token.endMark])) y [Token.endMark])
    (hp : p.Under .term) : Extends ctx splits chooser random source text y := by
  obtain ⟨hopening, hclosing⟩ := b.isSign
  obtain ⟨hopen, hopen', hclose⟩ := Bracket.ne_brace hb
  have hwhole' : ∀ t ∈ u ++ [b.opening], t.Whole ctx := by
    simpa [or_imp, forall_and] using And.intro hwhole hopening.whole
  refine .of_words hctx hwords hwhole' (List.forall_mem_singleton.2 hclosing.whole)
    (by simpa using ⟨hbrace, hopen.symm⟩) (by simpa using hopen'.symm)
    (by simpa using hclose.symm) ?_ hp
  rwa [List.append_assoc]

/-- Round brackets around a source change nothing. -/
theorem extends_round (hctx : ctx.WellNamed)
    (hx : Readable ctx .term (processed ctx splits chooser random source) x) :
    Extends ctx splits chooser random source ("(" ++ source ++ ")") x := by
  have hinside := hx [")", Token.endMark] (.of_mem (t := ")") (by decide))
  exact .of_brackets (b := .round) (u := []) hctx (by decide)
    (Token.words_bracketed .round source) (List.forall_mem_nil _) List.not_mem_nil
    (.paren (hctx.opening_of_symbolic (by decide)) hinside) .primary_term

/-- Round brackets behind a function make a call. -/
theorem extends_call {f : Token} (hctx : ctx.WellNamed) (hf : ctx.opening f = .call)
    (hone : 1 ∈ ctx.arities f) (hzero : 0 ∉ ctx.arities f)
    (hx : Readable ctx .term (processed ctx splits chooser random source) x) :
    Extends ctx splits chooser random source (f ++ "(" ++ source ++ ")") (.node f [x] []) := by
  have hname : f.isIdentifier = true :=
    hctx.isIdentifier_of_isFunction (Context.isFunction_of_opening hf)
  have hinside := hx [")", Token.endMark] (.of_mem (t := ")") (by decide))
  have hcall : Reads ctx (.one .primary)
      (f :: "(" :: (processed ctx splits chooser random source ++ [")", Token.endMark]))
      (.node f [x] []) [Token.endMark] :=
    .callSome hf (.noDimensions (by decide : "(" ≠ "<")) hzero hinside (.stop (by decide)) hone
  exact .of_brackets (b := .round) (u := [f]) hctx (by decide)
    (Token.words_name_bracketed hname .round source)
    (List.forall_mem_singleton.2 (Token.whole_of_call hctx hf))
    (by simpa using (hctx.ne_brace (by simp [hf])).symm) hcall .primary_term

/-- Square brackets behind a variable of one letter make an index. -/
theorem extends_index {name : Token} (hctx : ctx.WellNamed) (hname : name.isIdentifier = true)
    (hlength : name.length = 1) (hleaf : ctx.opening name = .leaf (.var name))
    (hx : Readable ctx .term (processed ctx splits chooser random source) x) :
    Extends ctx splits chooser random source (name ++ "[" ++ source ++ "]")
      (.node "index1" [.leaf (.var name), x] []) := by
  obtain ⟨hminus, hnot⟩ := hctx.ne_sign (t := name) (by simp [hleaf])
  have hinside := hx ["]", Token.endMark] (.of_mem (t := "]") (by decide))
  have hindex : Reads ctx (.one .unary)
      (name :: "[" :: (processed ctx splits chooser random source ++ ["]", Token.endMark]))
      (.node "index1" [.leaf (.var name), x] []) [Token.endMark] :=
    .index1 hminus hnot (.leaf hleaf) hinside
  exact .of_brackets (b := .square) (u := [name]) hctx (by decide)
    (Token.words_name_bracketed hname .square source)
    (List.forall_mem_singleton.2 (Token.whole_of_length_one ctx hlength))
    (by simpa using (hctx.ne_brace (by simp [hleaf])).symm) hindex .unary_term

/-- Square brackets around a source make a vector, unless it begins with one. -/
theorem extends_square (hctx : ctx.WellNamed) (hfirst : (Token.scan source).head? ≠ some "[")
    (hx : Readable ctx .term (processed ctx splits chooser random source) x) :
    Extends ctx splits chooser random source ("[" ++ source ++ "]") (.node "vec" [x] []) := by
  have hinside := hx ["]", Token.endMark] (.of_mem (t := "]") (by decide))
  have hne := hinside.prefix_ne_nil
  have hrow : lead (processed ctx splits chooser random source) ≠ "[" := by
    intro hlead
    have hsplit := Token.lead_resolve chooser hlead
    have hwords : lead (Token.words source) = "[" := by
      split at hsplit
      · exact Token.lead_split (by decide) hsplit
      · exact hsplit
    rw [Token.scan, eq_cons_of_lead hwords (by decide)] at hfirst
    exact hfirst rfl
  rw [← lead_append hne ["]", Token.endMark]] at hrow
  have helements : Reads ctx (.one .elements) _ (.node "vec" [x] []) [Token.endMark] :=
    .elements (hinside.lead_ne_close hctx rfl (by decide)) hinside (.stop (by decide))
  exact .of_brackets (b := .square) (u := []) hctx (by decide)
    (Token.words_bracketed .square source) (List.forall_mem_nil _) List.not_mem_nil
    (.vector (hctx.opening_of_symbolic (by decide)) hrow helements) .primary_term

/-- Curly brackets around a source make a set. -/
theorem extends_curly (hctx : ctx.WellNamed)
    (hx : Readable ctx .term (processed ctx splits chooser random source) x) :
    Extends ctx splits chooser random source ("\x7b" ++ source ++ "\x7d") (.node "set" [x] []) := by
  have hinside := hx ["\x7d", Token.endMark] (.of_mem (t := "\x7d") (by decide))
  obtain ⟨u, hu, hderives⟩ := hinside.derives
  obtain rfl := List.append_cancel_right hu
  have hprepare := prepare_of_whole ctx splits chooser random (Token.words_bracketed .curly source)
    (List.forall_mem_singleton.2 (Bracket.isSign .curly).1.whole)
    (List.forall_mem_singleton.2 (Bracket.isSign .curly).2.whole)
  have hresolve := Token.resolve_braced chooser hctx random hderives (v := [Token.endMark])
    (by decide)
  dsimp only [Bracket.opening, Bracket.closing, List.cons_append, List.nil_append] at hprepare
  rw [hresolve] at hprepare
  have hset : Reads ctx (.one .primary) _ (.node "set" [x] []) [Token.endMark] :=
    .set (hctx.opening_of_symbolic (t := "\x7b") (by decide)) hinside (.stop (by decide))
  exact .of_prepare hctx hprepare hset .primary_term

/-- A source that is accepted is accepted in all kinds of brackets, with the same draws. Round
brackets change nothing, curly ones make a set, and square ones a vector, unless the source begins
with one. Behind a function of one argument round brackets make a call, and behind a variable of
one letter square ones make an index. -/
theorem parse_bracketed (hctx : ctx.WellNamed)
    (h : (parse ctx .terms splits chooser source random ()).result = .ok x ()) :
    Extends ctx splits chooser random source ("(" ++ source ++ ")") x ∧
      Extends ctx splits chooser random source ("\x7b" ++ source ++ "\x7d")
        (.node "set" [x] []) ∧
      (∀ f, 1 ∈ ctx.arities f → 0 ∉ ctx.arities f → f ∉ Token.constants →
        ctx.isIrrational f = false →
        Extends ctx splits chooser random source (f ++ "(" ++ source ++ ")") (.node f [x] [])) ∧
      (∀ name : Token, name.isIdentifier = true → name.length = 1 → ctx.isFunction name = false →
        ctx.isIrrational name = false → name ≠ "i" →
        Extends ctx splits chooser random source (name ++ "[" ++ source ++ "]")
          (.node "index1" [.leaf (.var name), x] [])) ∧
      ((Token.scan source).head? ≠ some "[" →
        Extends ctx splits chooser random source ("[" ++ source ++ "]") (.node "vec" [x] [])) := by
  have hx : Readable ctx .term (processed ctx splits chooser random source) x :=
    readable_of_parse h
  refine ⟨extends_round hctx hx, extends_curly hctx hx, fun f hone hzero hname hirr => ?_,
    fun name hname hlength hfun hirr hi => ?_, fun hfirst => extends_square hctx hfirst hx⟩
  · have hf : ctx.opening f = .call := Term.Printable.opening_of_call hctx hname hirr hone
    exact extends_call hctx hf hone hzero hx
  · have hconstant := Token.notMem_constants_of_length_one hlength hi
    have hleaf : ctx.opening name = .leaf (.var name) := by
      rw [Context.opening_of_isIdentifier hname hconstant, if_neg (Bool.eq_false_iff.1 hirr),
        if_neg (Bool.eq_false_iff.1 hfun)]
    exact extends_index hctx hname hlength hleaf hx

/-- A source with a bar, a sign and two groups in it. -/
theorem parse_bracketed_groups :
    let value : Term := .node "+" [.node ".-" [.node "abs" [.leaf (.var "x")] []] [],
      .node "*" [.leaf (.int 1), .leaf (.var "y")] []] []
    let Gives := Extends .standard true .first () "-|x|\x7b+|-\x7d1\x7b*\x7dy"
    Gives "(-|x|\x7b+|-\x7d1\x7b*\x7dy)" value ∧
      Gives "\x7b-|x|\x7b+|-\x7d1\x7b*\x7dy\x7d" (.node "set" [value] []) ∧
      Gives "sin(-|x|\x7b+|-\x7d1\x7b*\x7dy)" (.node "sin" [value] []) ∧
      Gives "a[-|x|\x7b+|-\x7d1\x7b*\x7dy]" (.node "index1" [.leaf (.var "a"), value] []) ∧
      Gives "[-|x|\x7b+|-\x7d1\x7b*\x7dy]" (.node "vec" [value] []) := by
  have hsource :
      (parse .standard .terms true .first "-|x|\x7b+|-\x7d1\x7b*\x7dy" () ()).result =
        .ok (.node "+" [.node ".-" [.node "abs" [.leaf (.var "x")] []] [],
          .node "*" [.leaf (.int 1), .leaf (.var "y")] []] []) () := by
    cbv
  obtain ⟨hround, hcurly, hcall, hindex, hsquare⟩ :=
    parse_bracketed Context.wellNamed_standard hsource
  exact ⟨hround, hcurly, hcall "sin" (by decide) (by decide) (by decide) (by decide),
    hindex "a" (by decide) (by decide) (by decide) (by decide) (by decide),
    hsquare (by decide)⟩

/-- A source that begins with a square bracket becomes the row of a matrix. -/
example : (parse .standard .terms true .first "[[x]]" () ()).result =
    .ok (.node "matrix" [.node "vec" [.leaf (.var "x")] []] []) () := by
  cbv

end Bracketed

end Expression

end TermReader
