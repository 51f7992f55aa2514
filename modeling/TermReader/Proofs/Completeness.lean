import TermReader.Proofs.Tails
import TermReader.Proofs.Execution

/-!
Reading is complete. A derivation may end a phrase early and leave what follows to
the phrases around it, while the reader takes whatever the next token allows. What
is left to the surrounding phrases is a row of links, and it remains one whatever the
reader takes of it, so the reader never rejects what another choice would accept.
-/

namespace TermReader

/-- The ranks of the tails that a phrase may take. -/
def Phrase.reach : Phrase → Nat
  | tier t => (Phrase.tier t).rank
  | sum => Phrase.sum.rank
  | product | power | unary | primary => Phrase.product.rank
  | row | elements => 0

/-- No tail that a phrase may take starts at the token. -/
def Phrase.Closes (p : Phrase) (t : Token) : Prop :=
  ∀ k : Tail, k.rank ≤ p.reach → ¬ k.Starts t

namespace Phrase

variable {p q : Phrase} {t : Token}

theorem Closes.mono (h : q.Closes t) (hreach : p.reach ≤ q.reach) : p.Closes t :=
  fun k hk => h k (hk.trans hreach)

/-- Closing brackets, separators and the end mark close every phrase. -/
theorem closes_of_mem (p : Phrase) (ht : t ∈ [")", "]", "\x7d", ",", "|", Token.endMark]) :
    p.Closes t :=
  fun _ _ => Tail.not_starts_of_mem ht

/-- What a looser tail starts with closes the phrase. -/
theorem closes_of_starts {k : Tail} (h : k.Starts t) (hreach : p.reach < k.rank) :
    p.Closes t := by
  intro k' hk' h'
  rw [Tail.starts_unique h' h] at hk'
  omega

theorem reach_operand_le (t : Tier) : t.operand.reach ≤ (Phrase.tier t).reach := by
  cases t <;> decide

/-- The phrase can be read from the tokens so that a row of links is left before `c`. -/
def Passes (p : Phrase) (ctx : Context) (ts : List Token) (tails : List Tail) (c : List Token) :
    Prop :=
  ∃ y r, Reads ctx (.one p) ts y (r ++ c) ∧ Follows ctx tails r

end Phrase

/-- In a list every operand ends at a comma or at the end of the list. -/
theorem Derives.closes {ctx : Context} {k : Series} {w c : List Token} {p : Phrase}
    {xs : List (Token × Term)} (h : Derives ctx (.more k) w xs) (hk : k.operators = [","])
    (hc : p.Closes (lead c)) : p.Closes (lead (w ++ c)) := by
  cases h with
  | stop => exact hc
  | step hop =>
    rw [hk] at hop
    obtain rfl := List.mem_singleton.1 hop
    exact p.closes_of_mem (t := ",") (by decide)
  | juxtaposed => exact absurd hk (by decide)

/-- A token at which a primary phrase is read opens one. -/
theorem Reads.opens {ctx : Context} {ts rest : List Token} {x : Term}
    (h : Reads ctx (.one .primary) ts x rest) : ctx.opening (lead ts) ≠ .none := by
  cases h <;> simp_all

/-- A phrase other than the elements of a vector begins with a sign, with the bracket of a row
or with a token that opens a primary phrase. -/
theorem Reads.lead_ne {ctx : Context} {s : Token} (hnone : ctx.opening s = .none)
    (hs : s ∉ ["-", "!", "["]) {i : Item} {ts rest : List Token} {x : i.Value}
    (h : Reads ctx i ts x rest) {p : Phrase} (hi : i = .one p) (hp : p ≠ .elements) :
    lead ts ≠ s := by
  simp only [List.mem_cons, List.not_mem_nil, or_false, not_or] at hs
  obtain ⟨hminus, hnot, hrow⟩ := hs
  induction h generalizing p with
  | @single t _ _ _ _ _ ih => exact ih rfl (by cases t <;> decide)
  | @joined t _ _ _ _ _ _ _ _ _ ih => exact ih rfl (by cases t <;> decide)
  | sum _ _ ih | product _ _ ih | base _ _ ih | power _ _ ih => exact ih rfl (by decide)
  | plain _ _ _ _ ih | index1 _ _ _ _ ih | index2 _ _ _ _ _ ih => exact ih rfl (by decide)
  | minus => exact Ne.symm hminus
  | not => exact Ne.symm hnot
  | row => exact Ne.symm hrow
  | leaf ht | paren ht | bar ht | vector ht | matrix ht | set ht | callNone ht | callSome ht
  | apply ht =>
    rintro rfl
    rw [lead_cons, ht] at hnone
    cases hnone
  | empty | elements => exact absurd (Item.one.inj hi).symm hp
  | stop | step | noDimensions | dimensions => cases hi

/-- Only the elements of a vector may begin with a closing bracket. -/
theorem Reads.lead_ne_close {ctx : Context} (hctx : ctx.WellNamed) {i : Item}
    {ts rest : List Token} {x : i.Value} (h : Reads ctx i ts x rest) {p : Phrase}
    (hi : i = .one p) (hp : p ≠ .elements) : lead ts ≠ "]" :=
  h.lead_ne (hctx.opening_of_symbolic (by decide)) (by decide) hi hp

/-- Derivations of a size below `n` are read through, whatever row of links follows. -/
def Complete (ctx : Context) (n : Nat) : Prop :=
  ∀ ⦃p u x tails v c⦄, 16 * (u.length + v.length) + p.rank < n → Derives ctx (.one p) u x →
    Follows ctx tails v → p.Closes (lead c) → p.Passes ctx (u ++ (v ++ c)) tails c

namespace Complete

variable {ctx : Context} {n : Nat} {u v c : List Token} {x : Term} {tails : List Tail}

/-- With nothing but a closing token behind it, a phrase is read to its end. -/
theorem alone {p : Phrase} (hn : Complete ctx n) (hsize : 16 * u.length + p.rank < n)
    (hx : Derives ctx (.one p) u x) (hc : p.Closes (lead c)) :
    ∃ y, Reads ctx (.one p) (u ++ c) y c := by
  obtain ⟨y, r, hy, hr⟩ := hn (v := []) hsize hx .nil hc
  obtain rfl := hr.eq_nil
  exact ⟨y, hy⟩

theorem length_lt {p : Phrase} {y : Term} {r : List Token}
    (h : Reads ctx (.one p) (u ++ (v ++ c)) y (r ++ c)) : r.length < u.length + v.length := by
  have hshort := h.shortens
  simp only [Item.Shortens, List.length_append] at hshort
  omega

theorem tier {t : Tier} (hn : Complete ctx n)
    (hsize : 16 * (u.length + v.length) + (Phrase.tier t).rank ≤ n)
    (hx : Derives ctx (.one t.operand) u x) (hv : Follows ctx (.tier t :: tails) v)
    (hc : (Phrase.tier t).Closes (lead c)) :
    (Phrase.tier t).Passes ctx (u ++ (v ++ c)) tails c := by
  have hrank := t.rank_operand_lt
  have hoperand := hc.mono (Phrase.reach_operand_le t)
  obtain ⟨y, r, hy, hr⟩ := hn (by omega) hx hv hoperand
  have hlt := length_lt hy
  rcases hr.next (hc (.tier t) le_rfl) with
    ⟨hstop, hr⟩ | ⟨w, v', tails', rfl, hlink, hv', hsuffix⟩
  · exact ⟨y, r, .single hy fun h => hstop (.inl h), hr⟩
  · cases hlink with
    | tier hop hz =>
      simp only [List.length_append, List.length_cons] at hlt
      obtain ⟨z, r', hz, hr'⟩ := hn (by omega) hz hv' hoperand
      rw [List.append_assoc] at hy
      exact ⟨_, r', .joined hy hop hz, hr'.of_suffix hsuffix⟩

theorem power (hn : Complete ctx n)
    (hsize : 16 * (u.length + v.length) + Phrase.power.rank ≤ n)
    (hx : Derives ctx (.one .unary) u x) (hv : Follows ctx (.power :: tails) v)
    (hc : Phrase.power.Closes (lead c)) : Phrase.power.Passes ctx (u ++ (v ++ c)) tails c := by
  simp only [Phrase.rank] at hsize
  obtain ⟨y, r, hy, hr⟩ := hn (by simp only [Phrase.rank]; omega) hx hv hc
  have hlt := length_lt hy
  rcases hr.next (hc .power le_rfl) with
    ⟨hstop, hr⟩ | ⟨w, v', tails', rfl, hlink, hv', hsuffix⟩
  · exact ⟨y, r, .base hy fun h => hstop (.inl (List.mem_singleton.2 h)), hr⟩
  · cases hlink with
    | power hz =>
      simp only [List.length_append, List.length_cons] at hlt
      obtain ⟨z, r', hz, hr'⟩ := hn (by simp only [Phrase.rank]; omega) hz hv' hc
      rw [List.append_assoc] at hy
      exact ⟨_, r', .power hy hz, hr'.of_suffix hsuffix⟩

/-- A chain goes on through all links that it can take. -/
theorem more {k : Chain} (hn : Complete ctx n) (hsize : 16 * v.length + 15 < n)
    (hv : Follows ctx (.chain k :: tails) v) (hoperand : k.series.operand.Closes (lead c))
    (hc : ¬ (Tail.chain k).Starts (lead c)) :
    ∃ later r, Reads ctx (.more k.series) (v ++ c) later (r ++ c) ∧ Follows ctx tails r := by
  have hrank : k.series.operand.rank ≤ 14 :=
    (k.series.rank_operand_lt.le.trans k.series.rank_le).trans (by omega)
  -- an operand may leave a row that is no part of the old one, only shorter
  induction hm : v.length using Nat.strong_induction_on generalizing v with
  | _ m ih =>
    rcases hv.next hc with ⟨hstop, hr⟩ | ⟨u, w, tails', rfl, hlink, hw, hsuffix⟩
    · refine ⟨[], v, .stop ?_, hr⟩
      by_contra hjoint
      exact hstop (Tail.starts_chain_iff.2 hjoint)
    · obtain ⟨j, u', x, hjoint, hpast, hle, hx⟩ := hlink.exists_operand (w ++ c)
      rw [List.length_append] at hsize hm
      obtain ⟨y, r, hy, hr⟩ := hn (by omega) hx hw hoperand
      have hlt := length_lt hy
      obtain ⟨later, r', hlater, hr'⟩ :=
        ih r.length (by omega) (by omega) (hr.of_suffix hsuffix) rfl
      rw [List.append_assoc]
      exact ⟨_, r', .step hjoint (hpast ▸ hy) hlater, hr'⟩

theorem product (hn : Complete ctx n)
    (hsize : 16 * (u.length + v.length) + Phrase.product.rank ≤ n)
    (hx : Derives ctx (.one .power) u x) (hv : Follows ctx (.chain .factors :: tails) v)
    (hc : Phrase.product.Closes (lead c)) :
    Phrase.product.Passes ctx (u ++ (v ++ c)) tails c := by
  simp only [Phrase.rank] at hsize
  obtain ⟨y, r, hy, hr⟩ := hn (by simp only [Phrase.rank]; omega) hx hv hc
  have hlt := length_lt hy
  obtain ⟨later, r', hlater, hr'⟩ :=
    hn.more (by omega) hr hc (hc (.chain .factors) le_rfl)
  exact ⟨_, r', .product hy hlater, hr'⟩

theorem sum (hn : Complete ctx n)
    (hsize : 16 * (u.length + v.length) + Phrase.sum.rank ≤ n)
    (hx : Derives ctx (.one .product) u x) (hv : Follows ctx (.chain .summands :: tails) v)
    (hc : Phrase.sum.Closes (lead c)) : Phrase.sum.Passes ctx (u ++ (v ++ c)) tails c := by
  simp only [Phrase.rank] at hsize
  have hproduct : Phrase.product.Closes (lead c) := hc.mono (by decide)
  obtain ⟨y, r, hy, hr⟩ := hn (by simp only [Phrase.rank]; omega) hx hv hproduct
  have hlt := length_lt hy
  obtain ⟨later, r', hlater, hr'⟩ :=
    hn.more (by omega) hr hproduct (hc (.chain .summands) le_rfl)
  exact ⟨_, r', .sum hy hlater, hr'⟩

theorem unary (hctx : ctx.WellNamed) (hn : Complete ctx n)
    (hsize : 16 * (u.length + v.length) + Phrase.unary.rank ≤ n)
    (hx : Derives ctx (.one .primary) u x) (hv : Follows ctx (.index :: tails) v)
    (hc : Phrase.unary.Closes (lead c)) : Phrase.unary.Passes ctx (u ++ (v ++ c)) tails c := by
  simp only [Phrase.rank] at hsize
  obtain ⟨y, r, hy, hr⟩ := hn (by simp only [Phrase.rank]; omega) hx hv hc
  obtain ⟨hminus, hnot⟩ := hctx.ne_sign hy.opens
  have hlt := length_lt hy
  rcases hr.next (hc .index le_rfl) with
    ⟨hstop, hr⟩ | ⟨w, v', tails', rfl, hlink, hv', hsuffix⟩
  · exact ⟨y, r, .plain hminus hnot hy fun h => hstop (.inl (List.mem_singleton.2 h)), hr⟩
  · cases hlink with
    | @index1 w _ hi =>
      simp only [List.length_append, List.length_cons, List.length_nil] at hlt
      simp only [List.append_assoc, List.cons_append, List.nil_append] at hy
      obtain ⟨i, hi⟩ := hn.alone (c := "]" :: (v' ++ c))
        (by simp only [Phrase.rank, Phrase.term]; omega) hi
        (Phrase.closes_of_mem _ (t := "]") (by decide))
      exact ⟨_, v', .index1 hminus hnot hy hi, hv'.of_suffix hsuffix⟩
    | @index2 w _ w' _ hi hj =>
      simp only [List.length_append, List.length_cons, List.length_nil] at hlt
      simp only [List.append_assoc, List.cons_append, List.nil_append] at hy
      obtain ⟨i, hi⟩ := hn.alone (c := "," :: (w' ++ "]" :: (v' ++ c)))
        (by simp only [Phrase.rank, Phrase.term]; omega) hi
        (Phrase.closes_of_mem _ (t := ",") (by decide))
      obtain ⟨j, hj⟩ := hn.alone (c := "]" :: (v' ++ c))
        (by simp only [Phrase.rank, Phrase.term]; omega) hj
        (Phrase.closes_of_mem _ (t := "]") (by decide))
      exact ⟨_, v', .index2 hminus hnot hy hi hj, hv'.of_suffix hsuffix⟩

/-- A list is read operand by operand, since every operand ends at a comma or at
the token that closes the list. -/
theorem later {k : Series} {w : List Token} {xs : List (Token × Term)} (hn : Complete ctx n)
    (hk : k.operators = [","]) (hsize : 16 * w.length ≤ n) (hxs : Derives ctx (.more k) w xs)
    (hc : k.operand.Closes (lead c)) (hstop : lead c ≠ ",") :
    ∃ ys, ys.length = xs.length ∧ Reads ctx (.more k) (w ++ c) ys c := by
  have hrank : k.operand.rank ≤ 14 :=
    (k.rank_operand_lt.le.trans k.rank_le).trans (by omega)
  induction xs generalizing w with
  | nil =>
    cases hxs
    exact ⟨[], rfl, .stop (Series.joint?_eq_none hk hstop)⟩
  | cons y xs ih =>
    cases hxs with
    | @step k op u x v _ hop hx hlater =>
      simp only [List.length_append, List.length_cons] at hsize
      obtain ⟨ys, hlength, hys⟩ := ih (by omega) hlater
      obtain ⟨y, hy⟩ := hn.alone (by omega) hx (hlater.closes hk hc)
      refine ⟨(op, y) :: ys, congrArg Nat.succ hlength, ?_⟩
      rw [List.cons_append, List.append_assoc]
      exact .step (j := .written op) (Series.joint?_of_mem hop) hy hys
    | juxtaposed => exact absurd hk (by decide)

theorem list {k : Series} {w : List Token} {xs : List (Token × Term)} (hn : Complete ctx n)
    (hk : k.operators = [","]) (hsize : 16 * (u.length + w.length) + 15 ≤ n)
    (hx : Derives ctx (.one k.operand) u x) (hxs : Derives ctx (.more k) w xs)
    (hc : k.operand.Closes (lead c)) (hstop : lead c ≠ ",") :
    ∃ y ys, ys.length = xs.length ∧ Reads ctx (.one k.operand) (u ++ (w ++ c)) y (w ++ c) ∧
      Reads ctx (.more k) (w ++ c) ys c := by
  have hrank : k.operand.rank ≤ 13 := k.rank_operand_lt.le.trans k.rank_le
  obtain ⟨ys, hlength, hys⟩ := hn.later hk (by omega) hxs hc hstop
  obtain ⟨y, hy⟩ := hn.alone (by omega) hx (hxs.closes hk hc)
  exact ⟨y, ys, hlength, hy, hys⟩

theorem dimensions {d : List Token} {dims : List Term} (hn : Complete ctx n)
    (hsize : 16 * d.length ≤ n) (hdims : Derives ctx .dimensions d dims) (hc : lead c ≠ "<") :
    ∃ dims', Reads ctx .dimensions (d ++ c) dims' c := by
  cases hdims with
  | noDimensions => exact ⟨[], .noDimensions hc⟩
  | @dimensions u x v later hx hlater =>
    simp only [List.length_append, List.length_cons, List.length_nil] at hsize
    have hangle : Phrase.unary.Closes ">" :=
      Phrase.closes_of_starts (k := .tier .relation) (.inl (by decide)) (by decide)
    obtain ⟨y, ys, _, hy, hys⟩ := hn.list (k := .dimensions) (c := ">" :: c) rfl (by omega) hx
      hlater hangle (by decide : ">" ≠ ",")
    refine ⟨Term.operands y ys, ?_⟩
    simp only [List.append_assoc, List.cons_append, List.nil_append]
    exact .dimensions hy hys

end Complete

/-- Reading is complete, by induction on the size of what is derived and of the row
of links behind it. -/
theorem Derives.complete {ctx : Context} (hctx : ctx.WellNamed) (hnull : ctx.NullaryApart)
    (n : Nat) : Complete ctx n := by
  induction n with
  | zero => exact fun _ _ _ _ _ _ hsize => absurd hsize (Nat.not_lt_zero _)
  | succ n hn =>
    intro p u x tails v c hsize hx hv hc
    replace hsize := Nat.le_of_lt_succ hsize
    cases hx with
    | single hx => exact hn.tier hsize hx (.skip hv) hc
    | @joined t op u _ w _ hx hop hy =>
      rw [List.length_append, List.length_cons] at hsize
      rw [List.append_assoc, ← List.append_assoc (op :: w)]
      refine hn.tier ?_ hx (.take (.tier hop hy) hv) hc
      simp only [List.length_append, List.length_cons]
      omega
    | @sum u _ w _ hx hlater =>
      rw [List.length_append] at hsize
      rw [List.append_assoc, ← List.append_assoc w]
      exact hn.sum (by rw [List.length_append]; omega) hx (hlater.follows (k := .summands) hv) hc
    | @product u _ w _ hx hlater =>
      rw [List.length_append] at hsize
      rw [List.append_assoc, ← List.append_assoc w]
      exact hn.product (by rw [List.length_append]; omega) hx
        (hlater.follows (k := .factors) hv) hc
    | base hx => exact hn.power hsize hx (.skip hv) hc
    | @power u _ w _ hx hy =>
      rw [List.length_append, List.length_cons] at hsize
      rw [List.append_assoc, ← List.append_assoc ("^" :: w)]
      refine hn.power ?_ hx (.take (.power hy) hv) hc
      simp only [List.length_append, List.length_cons]
      omega
    | minus hx =>
      simp only [List.length_cons, Phrase.rank] at hsize
      obtain ⟨y, r, hy, hr⟩ := hn (by simp only [Phrase.rank]; omega) hx hv hc
      exact ⟨_, r, .minus hy, hr⟩
    | not hx =>
      simp only [List.length_cons, Phrase.rank] at hsize
      obtain ⟨y, r, hy, hr⟩ := hn (by simp only [Phrase.rank]; omega) hx hv hc
      exact ⟨_, r, .not hy, hr⟩
    | plain hx => exact hn.unary hctx hsize hx (.skip hv) hc
    | @index1 u _ w _ hx hi =>
      simp only [List.length_append, List.length_cons, List.length_nil] at hsize
      rw [List.append_assoc, ← List.append_assoc ("[" :: (w ++ ["]"]))]
      refine hn.unary hctx ?_ hx (.take (.index1 hi) hv) hc
      simp only [List.length_append, List.length_cons, List.length_nil]
      omega
    | @index2 u _ w _ w' _ hx hi hj =>
      simp only [List.length_append, List.length_cons, List.length_nil] at hsize
      rw [List.append_assoc, ← List.append_assoc ("[" :: (w ++ "," :: (w' ++ ["]"])))]
      refine hn.unary hctx ?_ hx (.take (.index2 hi hj) hv) hc
      simp only [List.length_append, List.length_cons, List.length_nil]
      omega
    | leaf ht => exact ⟨_, v, .leaf ht, hv⟩
    | @paren u _ hx =>
      simp only [List.length_append, List.length_cons, List.length_nil, Phrase.rank] at hsize
      obtain ⟨y, hy⟩ := hn.alone (c := ")" :: (v ++ c))
        (by simp only [Phrase.rank, Phrase.term]; omega) hx
        (Phrase.closes_of_mem _ (t := ")") (by decide))
      simp only [List.append_assoc, List.cons_append, List.nil_append]
      exact ⟨y, v, .paren (hctx.opening_of_symbolic (by decide)) hy, hv⟩
    | @bar u _ hx =>
      simp only [List.length_append, List.length_cons, List.length_nil, Phrase.rank] at hsize
      obtain ⟨y, hy⟩ := hn.alone (c := "|" :: (v ++ c))
        (by simp only [Phrase.rank, Phrase.term]; omega) hx
        (Phrase.closes_of_mem _ (t := "|") (by decide))
      simp only [List.append_assoc, List.cons_append, List.nil_append]
      exact ⟨_, v, .bar (hctx.opening_of_symbolic (by decide)) hy, hv⟩
    | vector hrow hx =>
      simp only [List.length_cons, Phrase.rank] at hsize
      obtain ⟨y, r, hy, hr⟩ := hn (by simp only [Phrase.rank]; omega) hx hv
        (hc.mono (Nat.zero_le _))
      rw [← lead_append (hx.ne_nil rfl) (v ++ c)] at hrow
      exact ⟨y, r, .vector (hctx.opening_of_symbolic (by decide)) hrow hy, hr⟩
    | matrix hx hlater =>
      simp only [List.length_append, List.length_cons, List.length_nil, Phrase.rank] at hsize
      obtain ⟨y, ys, -, hy, hys⟩ := hn.list (k := .rows) (c := "]" :: (v ++ c)) rfl (by omega) hx
        hlater (Phrase.closes_of_mem _ (t := "]") (by decide)) (by decide : "]" ≠ ",")
      simp only [List.append_assoc, List.cons_append, List.nil_append]
      exact ⟨_, v, .matrix (hctx.opening_of_symbolic (by decide)) hy hys, hv⟩
    | set hx hlater =>
      simp only [List.length_append, List.length_cons, List.length_nil, Phrase.rank] at hsize
      obtain ⟨y, ys, -, hy, hys⟩ := hn.list (k := .terms) (c := "\x7d" :: (v ++ c)) rfl (by omega)
        hx hlater (Phrase.closes_of_mem _ (t := "\x7d") (by decide)) (by decide : "\x7d" ≠ ",")
      simp only [List.append_assoc, List.cons_append, List.nil_append]
      exact ⟨_, v, .set (hctx.opening_of_symbolic (by decide)) hy hys, hv⟩
    | callNone ht hdims hcount =>
      simp only [List.length_append, List.length_cons, List.length_nil, Phrase.rank] at hsize
      obtain ⟨dims', hdims'⟩ := hn.dimensions (c := "(" :: ")" :: (v ++ c)) (by omega) hdims
        (by decide : "(" ≠ "<")
      simp only [List.append_assoc, List.cons_append, List.nil_append]
      exact ⟨_, v, .callNone ht hdims' hcount, hv⟩
    | @callSome t d _ u _ w xs ht hdims hx hlater hcount =>
      simp only [List.length_append, List.length_cons, List.length_nil, Phrase.rank] at hsize
      obtain ⟨y, ys, hlength, hy, hys⟩ := hn.list (k := .terms) (c := ")" :: (v ++ c)) rfl
        (by omega) hx hlater (Phrase.closes_of_mem _ (t := ")") (by decide))
        (by decide : ")" ≠ ",")
      obtain ⟨dims', hdims'⟩ := hn.dimensions (c := "(" :: (u ++ (w ++ ")" :: (v ++ c))))
        (by omega) hdims (by decide : "(" ≠ "<")
      -- the reader would not look for arguments if the name also had arity 0
      have hsome : 0 ∉ ctx.arities t := fun hzero => by
        cases hnull.eq_zero hzero hcount
      have hcount' : (Term.operands y ys).length ∈ ctx.arities t := by
        simpa only [Term.operands, List.length_cons, List.length_map, hlength] using hcount
      simp only [List.append_assoc, List.cons_append, List.nil_append]
      exact ⟨_, v, .callSome ht hdims' hsome hy hys hcount', hv⟩
    | apply ht hangle hparen hone hx =>
      simp only [List.length_cons, Phrase.rank] at hsize
      obtain ⟨y, r, hy, hr⟩ := hn (by simp only [Phrase.rank]; omega) hx hv hc
      rw [← lead_append (hx.ne_nil rfl) (v ++ c)] at hangle hparen
      exact ⟨_, r, .apply ht hangle hparen hone hy, hr⟩
    | row hx =>
      simp only [List.length_cons, Phrase.rank] at hsize
      obtain ⟨y, r, hy, hr⟩ := hn (by simp only [Phrase.rank]; omega) hx hv hc
      exact ⟨_, r, .row hy, hr⟩
    | empty => exact ⟨_, v, .empty, hv⟩
    | elements hx hlater =>
      simp only [List.length_append, List.length_cons, List.length_nil, Phrase.rank] at hsize
      obtain ⟨y, ys, -, hy, hys⟩ := hn.list (k := .terms) (c := "]" :: (v ++ c)) rfl (by omega)
        hx hlater (Phrase.closes_of_mem _ (t := "]") (by decide)) (by decide : "]" ≠ ",")
      have hclose := hy.lead_ne_close hctx rfl (by decide)
      simp only [List.append_assoc, List.cons_append, List.nil_append]
      exact ⟨_, v, .elements hclose hy hys, hv⟩

namespace Grammar

/-- The reader accepts exactly the grammar, and what it returns is the tree of a
derivation. -/
theorem read_ok_iff_derives {ctx : Context} (hctx : ctx.WellNamed) (hnull : ctx.NullaryApart)
    (w : List Token) :
    ((∃ x, read ctx .terms (w ++ [Token.endMark]) () = .ok x ()) ↔
      ∃ x, Derives ctx (.one .term) w x) ∧
    ∀ x, read ctx .terms (w ++ [Token.endMark]) () = .ok x () → Derives ctx (.one .term) w x := by
  have hsound : ∀ x, read ctx .terms (w ++ [Token.endMark]) () = .ok x () →
      Derives ctx (.one .term) w x := by
    intro x hx
    obtain ⟨u, hu, hderives⟩ := ((read_eq_ok_iff ctx _ x).1 hx).derives
    rwa [List.append_cancel_right hu]
  refine ⟨⟨?_, ?_⟩, hsound⟩
  · rintro ⟨x, hx⟩
    exact ⟨x, hsound x hx⟩
  · rintro ⟨x, hx⟩
    obtain ⟨y, hy⟩ := (Derives.complete hctx hnull _).alone (c := [Token.endMark])
      (Nat.lt_succ_self _) hx (Phrase.closes_of_mem _ (t := Token.endMark) (by decide))
    exact ⟨y, (read_eq_ok_iff ctx _ y).2 hy⟩

/-- A sign that is followed by a power negates the whole power. -/
theorem derives_negated_power :
    Derives Context.standard (.one .term) ["-", "x", "^", "2"]
      (.node ".-" [.node "^" [.leaf (.var "x"), .leaf (.int 2)] []] []) :=
  (read_ok_iff_derives Context.wellNamed_standard Context.nullaryApart_standard _).2 _ (by cbv)

end Grammar

end TermReader
