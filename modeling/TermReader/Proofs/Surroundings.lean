import TermReader.Proofs.Readable

/-!
What a phrase takes does not depend on its surroundings. The reader sees one token of what
follows, so tokens that have been read are read in the same way before anything that starts
with the same token, and before any token at which nothing that was read last goes on. In
particular a term that is read alone is read in any brackets.
-/

namespace TermReader

/-- The phrase takes the tokens to their end when nothing but the end mark follows. -/
def Grammar.ReadsAlone (ctx : Context) (p : Phrase) (u : List Token) (x : Term) : Prop :=
  ∃ c h, phrase ctx .terms p (.start (u ++ [Token.endMark])) () = .ok ⟨x, c, h⟩ () ∧
    c.rest = [Token.endMark]

theorem Grammar.readsAlone_iff {ctx : Context} {p : Phrase} {u : List Token} {x : Term} :
    ReadsAlone ctx p u x ↔ Reads ctx (.one p) (u ++ [Token.endMark]) x [Token.endMark] := by
  constructor
  · rintro ⟨c, h, hx, hrest⟩
    have hreads := (inverts ctx).1 p _ _ hx
    rwa [hrest] at hreads
  · intro h
    obtain ⟨m, ⟨hm, hx⟩, -⟩ := h.moves 0
    exact ⟨_, hm, hx, rfl⟩

/-- What the item takes from `ts`, up to `rest`, would go on at the token `s`: the token starts
a tail of the item itself or of what the item ends with. Nothing goes on behind a bracket but
the operand that it ends. -/
inductive Takes (ctx : Context) (s : Token) : Item → List Token → List Token → Prop
  | operator {t ts x rest} (hx : Reads ctx (.one t.operand) ts x rest) (hs : s ∈ t.operators) :
      Takes ctx s (.one (.tier t)) ts rest
  | single {t ts rest} (h : Takes ctx s (.one t.operand) ts rest) :
      Takes ctx s (.one (.tier t)) ts rest
  | joined {t op ts x ts₁ rest} (hx : Reads ctx (.one t.operand) ts x (op :: ts₁))
      (hop : op ∈ t.operators) (h : Takes ctx s (.one t.operand) ts₁ rest) :
      Takes ctx s (.one (.tier t)) ts rest
  | summand {ts rest} (h : Takes ctx s (.one .product) ts rest) : Takes ctx s (.one .sum) ts rest
  | sum {ts x ts₁ rest} (hx : Reads ctx (.one .product) ts x ts₁)
      (h : Takes ctx s (.more .summands) ts₁ rest) : Takes ctx s (.one .sum) ts rest
  | factor {ts rest} (h : Takes ctx s (.one .power) ts rest) : Takes ctx s (.one .product) ts rest
  | product {ts x ts₁ rest} (hx : Reads ctx (.one .power) ts x ts₁)
      (h : Takes ctx s (.more .factors) ts₁ rest) : Takes ctx s (.one .product) ts rest
  | exponent {ts x rest} (hx : Reads ctx (.one .unary) ts x rest) (hs : s = "^") :
      Takes ctx s (.one .power) ts rest
  | base {ts rest} (h : Takes ctx s (.one .unary) ts rest) : Takes ctx s (.one .power) ts rest
  | power {ts x ts₁ rest} (hx : Reads ctx (.one .unary) ts x ("^" :: ts₁))
      (h : Takes ctx s (.one .unary) ts₁ rest) : Takes ctx s (.one .power) ts rest
  | minus {ts rest} (h : Takes ctx s (.one .product) ts rest) :
      Takes ctx s (.one .unary) ("-" :: ts) rest
  | not {ts rest} (h : Takes ctx s (.one .primary) ts rest) :
      Takes ctx s (.one .unary) ("!" :: ts) rest
  | index {ts x rest} (hx : Reads ctx (.one .primary) ts x rest) (hs : s = "[") :
      Takes ctx s (.one .unary) ts rest
  | plain {ts rest} (hminus : lead ts ≠ "-") (hnot : lead ts ≠ "!")
      (h : Takes ctx s (.one .primary) ts rest) : Takes ctx s (.one .unary) ts rest
  | apply {t ts rest} (ht : ctx.opening t = .call) (hangle : lead ts ≠ "<")
      (hparen : lead ts ≠ "(") (hone : 1 ∈ ctx.arities t)
      (h : Takes ctx s (.one .unary) ts rest) : Takes ctx s (.one .primary) (t :: ts) rest
  | joint {k ts} (hs : k.joint? s ≠ none) : Takes ctx s (.more k) ts ts
  | last {k j ts rest} (hjoint : k.joint? (lead ts) = some j)
      (h : Takes ctx s (.one k.operand) (j.past ts) rest) : Takes ctx s (.more k) ts rest
  | later {k j ts x ts₁ rest} (hjoint : k.joint? (lead ts) = some j)
      (hx : Reads ctx (.one k.operand) (j.past ts) x ts₁)
      (h : Takes ctx s (.more k) ts₁ rest) : Takes ctx s (.more k) ts rest
  | dimensions {ts} (hs : s = "<") : Takes ctx s .dimensions ts ts

/-- The token starts no tail that the item may take. -/
def Item.Closes : Item → Token → Prop
  | one p, s => p.Closes s
  | more k, s => k.operand.Closes s ∧ k.joint? s = none
  | dimensions, s => s ≠ "<"

/-- A series does not go on at a token that starts no tail of it. -/
theorem Tail.joint?_eq_none {k : Chain} {t : Token} (h : ¬ (Tail.chain k).Starts t) :
    k.series.joint? t = none :=
  not_ne_iff.1 (mt Tail.starts_chain_iff.2 h)

theorem Phrase.Closes.ne {p : Phrase} {s t : Token} (h : p.Closes t) {k : Tail}
    (hk : k.rank ≤ p.reach) (hs : s ∈ k.symbols) : t ≠ s :=
  fun heq => h k hk (.inl (heq ▸ hs))

/-- What closes a chain closes its operands and is no joint of it. -/
theorem Item.Closes.more {k : Chain} {s : Token} (h : (Tail.chain k).phrase.Closes s) :
    (Item.more k.series).Closes s := by
  refine ⟨Phrase.Closes.mono h ?_, Tail.joint?_eq_none (h (.chain k) ?_)⟩
  · cases k <;> decide
  · cases k <;> decide

/-- What closes an item is left alone by all that the item may end with. -/
theorem Item.Closes.not_takes {ctx : Context} {s : Token} {i : Item} {ts rest : List Token}
    (hclose : i.Closes s) : ¬ Takes ctx s i ts rest := by
  intro h
  induction h with
  | @operator t _ _ _ _ hs => exact hclose (.tier t) le_rfl (.inl hs)
  | @single t _ _ _ ih | @joined t _ _ _ _ _ _ _ _ ih =>
    exact ih (Phrase.Closes.mono hclose (Phrase.reach_operand_le t))
  | summand _ ih | factor _ ih | base _ ih | power _ _ ih | minus _ ih | not _ ih
  | plain _ _ _ ih | apply _ _ _ _ _ ih =>
    exact ih (Phrase.Closes.mono hclose (by decide))
  | sum _ _ ih => exact ih (more (k := .summands) hclose)
  | product _ _ ih => exact ih (more (k := .factors) hclose)
  | exponent _ hs => exact hclose .power le_rfl (.inl (List.mem_singleton.2 hs))
  | index _ hs => exact hclose .index le_rfl (.inl (List.mem_singleton.2 hs))
  | joint hs => exact hs hclose.2
  | last _ _ ih => exact ih hclose.1
  | later _ _ _ ih => exact ih hclose
  | dimensions hs => exact hclose hs

/-- Behind what the item takes from `ts`, up to `rest`, the tokens `c` may stand for `rest`:
they start with the same token or with one at which nothing goes on. -/
def Fits (ctx : Context) (i : Item) (ts rest c : List Token) : Prop :=
  lead c = lead rest ∨ ¬ Takes ctx (lead c) i ts rest

namespace Fits

variable {ctx : Context} {i j : Item} {ts us rest c : List Token}

theorem lead_ne {s : Token} (h : Fits ctx i ts rest c) (hrest : lead rest ≠ s)
    (htakes : lead c = s → Takes ctx (lead c) i ts rest) : lead c ≠ s := by
  rcases h with heq | hnot
  · rwa [heq]
  · exact fun hs => hnot (htakes hs)

/-- What fits behind an item fits behind the item at its end. -/
theorem inner (h : Fits ctx i ts rest c)
    (htakes : Takes ctx (lead c) j us rest → Takes ctx (lead c) i ts rest) :
    Fits ctx j us rest c :=
  h.imp_right (mt htakes)

/-- What is followed by further tokens of the item sees only these, if there are any. -/
theorem ahead (h : Fits ctx i ts rest c) (v : List Token)
    (htakes : v = [] → Takes ctx (lead c) j us rest → Takes ctx (lead c) i ts rest) :
    Fits ctx j us (v ++ rest) (v ++ c) := by
  cases v with
  | nil => exact h.inner (htakes rfl)
  | cons => exact .inl rfl

theorem of_not_takes {s : Token} (h : ¬ Takes ctx s i ts rest) (c : List Token) :
    Fits ctx i ts rest (s :: c) :=
  .inr h

theorem of_closes (h : i.Closes (lead c)) : Fits ctx i ts rest c :=
  .inr h.not_takes

end Fits

theorem lead_append_cons (u : List Token) (t : Token) (c rest : List Token) :
    lead (u ++ t :: c) = lead (u ++ t :: rest) := by
  cases u <;> rfl

/-- A phrase takes a token at least. -/
theorem Reads.prefix_ne_nil {ctx : Context} {p : Phrase} {u rest : List Token} {x : Term}
    (h : Reads ctx (.one p) (u ++ rest) x rest) : u ≠ [] := by
  rintro rfl
  exact absurd h.shortens (Nat.lt_irrefl _)

/-- The tokens of a joint and an operand, whatever follows them. -/
theorem Joint.exists_prefix {k : Series} {j : Joint} {ts u rest : List Token}
    (hjoint : k.joint? (lead ts) = some j) (hpast : j.past ts = u ++ rest) (hu : u ≠ []) :
    ∃ w, w ≠ [] ∧ ts = w ++ rest ∧
      ∀ c, lead (w ++ c) = lead ts ∧ j.past (w ++ c) = u ++ c := by
  cases j with
  | implied =>
    have hts : ts = u ++ rest := hpast
    refine ⟨u, hu, hts, fun c => ⟨?_, rfl⟩⟩
    rw [hts, lead_append hu, lead_append hu]
  | written op =>
    have hne : lead ts ≠ Token.endMark := by
      intro hend
      rw [hend, k.joint?_endMark] at hjoint
      cases hjoint
    refine ⟨lead ts :: u, List.cons_ne_nil _ _, ?_, fun c => ⟨rfl, rfl⟩⟩
    rw [List.cons_append, ← hpast]
    exact eq_cons_of_lead rfl hne

/-- What an item takes it also takes before other tokens that fit. The induction is on the
reading; what is followed by further tokens of the item is followed by the same ones, and only
its end sees the others. -/
theorem Reads.exists_prefix {ctx : Context} {i : Item} {ts rest : List Token} {x : i.Value}
    (h : Reads ctx i ts x rest) :
    ∃ u, ts = u ++ rest ∧ ∀ c, Fits ctx i ts rest c → Reads ctx i (u ++ c) x c := by
  induction h with
  | @single t _ _ _ hx hstop ih =>
    obtain ⟨u, rfl, hu⟩ := ih
    refine ⟨u, rfl, fun c hc => .single (hu c (hc.inner .single)) fun hop => ?_⟩
    rcases hc with heq | hnot
    · exact hstop (heq ▸ hop)
    · exact hnot (.operator hx hop)
  | @joined _ op _ _ _ _ _ hx hop _ ihx ihy =>
    obtain ⟨u, rfl, hu⟩ := ihx
    obtain ⟨v, rfl, hv⟩ := ihy
    refine ⟨u ++ op :: v, by simp, fun c hc => ?_⟩
    rw [List.append_assoc, List.cons_append]
    exact .joined (hu _ (.inl rfl)) hop (hv c (hc.inner (.joined hx hop)))
  | sum hx _ ihx ihlater =>
    obtain ⟨u, rfl, hu⟩ := ihx
    obtain ⟨v, rfl, hv⟩ := ihlater
    refine ⟨u ++ v, by simp, fun c hc => ?_⟩
    rw [List.append_assoc]
    refine .sum (hu _ (hc.ahead v ?_)) (hv c (hc.inner (.sum hx)))
    exact fun _ h => .summand h
  | product hx _ ihx ihlater =>
    obtain ⟨u, rfl, hu⟩ := ihx
    obtain ⟨v, rfl, hv⟩ := ihlater
    refine ⟨u ++ v, by simp, fun c hc => ?_⟩
    rw [List.append_assoc]
    refine .product (hu _ (hc.ahead v ?_)) (hv c (hc.inner (.product hx)))
    exact fun _ h => .factor h
  | base hx hstop ih =>
    obtain ⟨u, rfl, hu⟩ := ih
    exact ⟨u, rfl, fun c hc => .base (hu c (hc.inner .base)) (hc.lead_ne hstop (.exponent hx))⟩
  | power hx _ ihx ihy =>
    obtain ⟨u, rfl, hu⟩ := ihx
    obtain ⟨v, rfl, hv⟩ := ihy
    refine ⟨u ++ "^" :: v, by simp, fun c hc => ?_⟩
    rw [List.append_assoc, List.cons_append]
    exact .power (hu _ (.inl rfl)) (hv c (hc.inner (.power hx)))
  | minus _ ih =>
    obtain ⟨u, rfl, hu⟩ := ih
    exact ⟨"-" :: u, rfl, fun c hc => .minus (hu c (hc.inner .minus))⟩
  | not _ ih =>
    obtain ⟨u, rfl, hu⟩ := ih
    exact ⟨"!" :: u, rfl, fun c hc => .not (hu c (hc.inner .not))⟩
  | plain hminus hnot hx hstop ih =>
    obtain ⟨u, rfl, hu⟩ := ih
    have hne := hx.prefix_ne_nil
    refine ⟨u, rfl, fun c hc => ?_⟩
    have hu' := hu c (hc.inner (.plain hminus hnot))
    have hstop' := hc.lead_ne hstop (.index hx)
    rw [lead_append hne, ← lead_append hne c] at hminus hnot
    exact .plain hminus hnot hu' hstop'
  | index1 hminus hnot hx _ ihx ihi =>
    obtain ⟨u, rfl, hu⟩ := ihx
    obtain ⟨v, rfl, hv⟩ := ihi
    have hne := hx.prefix_ne_nil
    refine ⟨u ++ "[" :: (v ++ ["]"]), by simp, fun c _ => ?_⟩
    simp only [List.append_assoc, List.cons_append, List.nil_append]
    refine .index1 ?_ ?_ (hu _ (.inl rfl)) (hv _ (.inl rfl))
    · rwa [lead_append hne] at hminus ⊢
    · rwa [lead_append hne] at hnot ⊢
  | index2 hminus hnot hx _ _ ihx ihi ihj =>
    obtain ⟨u, rfl, hu⟩ := ihx
    obtain ⟨v, rfl, hv⟩ := ihi
    obtain ⟨w, rfl, hw⟩ := ihj
    have hne := hx.prefix_ne_nil
    refine ⟨u ++ "[" :: (v ++ "," :: (w ++ ["]"])), by simp, fun c _ => ?_⟩
    simp only [List.append_assoc, List.cons_append, List.nil_append]
    refine .index2 ?_ ?_ (hu _ (.inl rfl)) (hv _ (.inl rfl)) (hw _ (.inl rfl))
    · rwa [lead_append hne] at hminus ⊢
    · rwa [lead_append hne] at hnot ⊢
  | @leaf t _ _ ht => exact ⟨[t], rfl, fun c _ => .leaf ht⟩
  | @paren t _ _ _ ht _ ih =>
    obtain ⟨u, rfl, hu⟩ := ih
    refine ⟨t :: (u ++ [")"]), by simp, fun c _ => ?_⟩
    simp only [List.append_assoc, List.cons_append, List.nil_append]
    exact .paren ht (hu _ (.inl rfl))
  | @bar t _ _ _ ht _ ih =>
    obtain ⟨u, rfl, hu⟩ := ih
    refine ⟨t :: (u ++ ["|"]), by simp, fun c _ => ?_⟩
    simp only [List.append_assoc, List.cons_append, List.nil_append]
    exact .bar ht (hu _ (.inl rfl))
  | @vector t _ _ _ ht hrow hx ih =>
    obtain ⟨u, rfl, hu⟩ := ih
    have hne := hx.prefix_ne_nil
    rw [lead_append hne] at hrow
    refine ⟨t :: u, rfl, fun c _ => ?_⟩
    rw [← lead_append hne c] at hrow
    exact .vector ht hrow (hu c (.inr nofun))
  | @matrix t _ _ _ _ _ ht _ _ ihx ihlater =>
    obtain ⟨u, rfl, hu⟩ := ihx
    obtain ⟨v, rfl, hv⟩ := ihlater
    refine ⟨t :: (u ++ (v ++ ["]"])), by simp, fun c _ => ?_⟩
    simp only [List.append_assoc, List.cons_append, List.nil_append]
    exact .matrix ht (hu _ (.inl (lead_append_cons v _ _ _))) (hv _ (.inl rfl))
  | @set t _ _ _ _ _ ht _ _ ihx ihlater =>
    obtain ⟨u, rfl, hu⟩ := ihx
    obtain ⟨v, rfl, hv⟩ := ihlater
    refine ⟨t :: (u ++ (v ++ ["\x7d"])), by simp, fun c _ => ?_⟩
    simp only [List.append_assoc, List.cons_append, List.nil_append]
    exact .set ht (hu _ (.inl (lead_append_cons v _ _ _))) (hv _ (.inl rfl))
  | @callNone t _ _ _ ht _ hcount ih =>
    obtain ⟨d, rfl, hd⟩ := ih
    refine ⟨t :: (d ++ ["(", ")"]), by simp, fun c _ => ?_⟩
    simp only [List.append_assoc, List.cons_append, List.nil_append]
    exact .callNone ht (hd _ (.inl rfl)) hcount
  | @callSome t _ _ _ _ _ _ _ ht _ hsome _ _ hcount ihdims ihx ihlater =>
    obtain ⟨d, rfl, hd⟩ := ihdims
    obtain ⟨u, rfl, hu⟩ := ihx
    obtain ⟨v, rfl, hv⟩ := ihlater
    refine ⟨t :: (d ++ "(" :: (u ++ (v ++ [")"]))), by simp, fun c _ => ?_⟩
    simp only [List.append_assoc, List.cons_append, List.nil_append]
    exact .callSome ht (hd _ (.inl rfl)) hsome (hu _ (.inl (lead_append_cons v _ _ _)))
      (hv _ (.inl rfl)) hcount
  | @apply t _ _ _ ht hangle hparen hone hx ih =>
    obtain ⟨u, rfl, hu⟩ := ih
    have hne := hx.prefix_ne_nil
    refine ⟨t :: u, rfl, fun c hc => ?_⟩
    have hu' := hu c (hc.inner (.apply ht hangle hparen hone))
    rw [lead_append hne, ← lead_append hne c] at hangle hparen
    exact .apply ht hangle hparen hone hu'
  | row _ ih =>
    obtain ⟨u, rfl, hu⟩ := ih
    exact ⟨"[" :: u, rfl, fun c _ => .row (hu c (.inr nofun))⟩
  | empty => exact ⟨["]"], rfl, fun c _ => .empty⟩
  | elements hclose hx _ ihx ihlater =>
    obtain ⟨u, rfl, hu⟩ := ihx
    obtain ⟨v, rfl, hv⟩ := ihlater
    have hne := hx.prefix_ne_nil
    refine ⟨u ++ (v ++ ["]"]), by simp, fun c _ => ?_⟩
    simp only [List.append_assoc, List.cons_append, List.nil_append]
    refine .elements ?_ (hu _ (.inl (lead_append_cons v _ _ _))) (hv _ (.inl rfl))
    rwa [lead_append hne] at hclose ⊢
  | @stop k ts hjoint =>
    refine ⟨[], rfl, fun c hc => .stop ?_⟩
    rcases hc with heq | hnot
    · rwa [List.nil_append, heq]
    · exact not_ne_iff.1 fun hs => hnot (.joint hs)
  | step hjoint hx _ ihx ihlater =>
    obtain ⟨u, hpast, hu⟩ := ihx
    obtain ⟨v, rfl, hv⟩ := ihlater
    obtain ⟨w, -, rfl, hw⟩ := Joint.exists_prefix hjoint hpast (hpast ▸ hx).prefix_ne_nil
    refine ⟨w ++ v, by simp, fun c hc => ?_⟩
    obtain ⟨hlead, hpast'⟩ := hw (v ++ c)
    rw [List.append_assoc]
    refine .step (hlead ▸ hjoint) (hpast' ▸ hu _ (hc.ahead v ?_))
      (hv c (hc.inner (.later hjoint hx)))
    exact fun _ h => .last hjoint h
  | noDimensions hangle =>
    exact ⟨[], rfl, fun c hc => .noDimensions (hc.lead_ne hangle .dimensions)⟩
  | dimensions _ _ ihx ihlater =>
    obtain ⟨u, rfl, hu⟩ := ihx
    obtain ⟨v, rfl, hv⟩ := ihlater
    refine ⟨"<" :: (u ++ (v ++ [">"])), by simp, fun c _ => ?_⟩
    simp only [List.append_assoc, List.cons_append, List.nil_append]
    exact .dimensions (hu _ (.inl (lead_append_cons v _ _ _))) (hv _ (.inl rfl))

/-- What is read to the end of its tokens is read in the same way before other tokens. -/
theorem Reads.before {ctx : Context} {i : Item} {u rest c : List Token} {x : i.Value}
    (h : Reads ctx i (u ++ rest) x rest) (hc : Fits ctx i (u ++ rest) rest c) :
    Reads ctx i (u ++ c) x c := by
  obtain ⟨v, hv, hreads⟩ := h.exists_prefix
  obtain rfl := List.append_cancel_right hv
  exact hreads c hc

/-- What is read alone as an operand would go on at the token. -/
def Grammar.GoesOn (ctx : Context) (s : Token) (u : List Token) : Prop :=
  Takes ctx s (.one .unary) (u ++ [Token.endMark]) [Token.endMark]

namespace Grammar.ReadsAlone

variable {ctx : Context} {p : Phrase} {u c : List Token} {x : Term}

/-- An operand that is read alone is read before every token at which nothing in it goes on. -/
theorem before {s : Token} (h : ReadsAlone ctx .unary u x) (hs : ¬ GoesOn ctx s u) :
    Reads ctx (.one .unary) (u ++ s :: c) x (s :: c) :=
  (readsAlone_iff.1 h).before (.of_not_takes hs c)

/-- A single token that stands for a value is an operand. -/
theorem leaf (hctx : ctx.WellNamed) {t : Token} {l : Leaf} (ht : ctx.opening t = .leaf l) :
    ReadsAlone ctx .unary [t] (.leaf l) := by
  have hprimary : Reads ctx (.one .primary) [t, Token.endMark] (.leaf l) [Token.endMark] :=
    .leaf ht
  exact readsAlone_iff.2 (hprimary.climb hctx (.unary .refl) (.of_mem (by decide)))

end Grammar.ReadsAlone

/-- Only signed and negated operands and functions without brackets go on, apart from an
index. -/
theorem Takes.opening_eq_call {ctx : Context} {s : Token} {ts rest : List Token}
    (h : Takes ctx s (.one .unary) ts rest) (hs : s ≠ "[") (hminus : lead ts ≠ "-")
    (hnot : lead ts ≠ "!") : ctx.opening (lead ts) = .call := by
  cases h with
  | minus => exact absurd rfl hminus
  | not => exact absurd rfl hnot
  | index _ h => exact absurd h hs
  | plain _ _ h =>
    cases h with
    | apply ht => exact ht

/-- Behind a single token that stands for a value nothing but an index is taken. -/
theorem Grammar.not_goesOn_of_leaf {ctx : Context} (hctx : ctx.WellNamed) {s t : Token} {l : Leaf}
    (ht : ctx.opening t = .leaf l) (hs : s ≠ "[") : ¬ GoesOn ctx s [t] := by
  obtain ⟨hminus, hnot⟩ := hctx.ne_sign (t := t) (by simp [ht])
  intro h
  have hcall := h.opening_eq_call hs hminus hnot
  rw [List.cons_append, lead_cons, ht] at hcall
  cases hcall

/-- Where terms stop nothing goes on. -/
theorem Phrase.Stops.closes {t : Token} (h : Phrase.term.Stops t) (p : Phrase) : p.Closes t := by
  refine fun k _ => h k ?_
  rcases k with _ | _ | (_ | _) | (_ | _ | _ | _) <;> decide

/-- A phrase that is read alone is read as a term in any brackets. -/
theorem Grammar.ReadsAlone.readable {ctx : Context} (hctx : ctx.WellNamed) {p : Phrase}
    {u : List Token} {x : Term} (h : ReadsAlone ctx p u x) (hp : p.Under .term) :
    Readable ctx .term u x := by
  intro c hc
  have hbefore : Reads ctx (.one p) (u ++ c) x c :=
    (readsAlone_iff.1 h).before (.of_closes (hc.closes p))
  exact hbefore.climb hctx hp hc

/-- A term that is read alone is read in any brackets. -/
theorem Grammar.readable_of_read {ctx : Context} {u : List Token} {x : Term}
    (h : read ctx .terms (u ++ [Token.endMark]) () = .ok x ()) : Readable ctx .term u x :=
  fun _ hc => ((read_eq_ok_iff ctx _ x).1 h).before (.of_closes (hc.closes .term))

end TermReader
