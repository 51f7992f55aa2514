import TermReader.Proofs.Completeness
import TermReader.Proofs.Pieces
import TermReader.Proofs.Renaming

/-!
Splitting and acceptance. A token that falls apart becomes several factors of a product,
so it must stand where a product may go on. Where it does, the derivation of the input is
rebuilt around the pieces, and what a reader accepts unsplit it accepts split.
-/

namespace TermReader

section Factors

variable {ctx : Context}

theorem Derives.more_append {k : Series} {v w : List Token} {xs ys : List (Token × Term)}
    (hv : Derives ctx (.more k) v xs) (hw : Derives ctx (.more k) w ys) :
    Derives ctx (.more k) (v ++ w) (xs ++ ys) := by
  induction xs generalizing v with
  | nil =>
    cases hv
    exact hw
  | cons x xs ih =>
    cases hv with
    | step hop hx hlater =>
      rw [List.cons_append, List.append_assoc]
      exact .step hop hx (ih hlater)
    | juxtaposed hstart hx hlater =>
      rw [List.append_assoc]
      exact .juxtaposed hstart hx (ih hlater)

/-- A name that is an operand by itself. -/
def Token.IsFactor (ctx : Context) (t : Token) : Prop :=
  t.isIdentifier = true ∧ ∃ l, ctx.opening t = .leaf l

/-- Names in a row are factors, the last of them together with what follows it. -/
theorem Derives.factors {ps z : List Token} (hne : ps ≠ []) (hps : ∀ p ∈ ps, p.IsFactor ctx)
    (hz : ∀ p ∈ ps, ∃ x, Derives ctx (.one .power) (p :: z) x) :
    ∃ later, Derives ctx (.more .factors) (ps ++ z) later := by
  induction ps with
  | nil => exact absurd rfl hne
  | cons p ps ih =>
    obtain ⟨⟨hname, l, hleaf⟩, hps⟩ := List.forall_mem_cons.1 hps
    obtain ⟨⟨x, hx⟩, hz⟩ := List.forall_mem_cons.1 hz
    by_cases hlast : ps = []
    · subst hlast
      have h := Derives.juxtaposed (u := p :: z) (.inl hname) hx .stop
      rw [List.append_nil] at h
      exact ⟨_, h⟩
    · obtain ⟨later, hlater⟩ := ih hlast hps hz
      exact ⟨_, .juxtaposed (u := [p]) (.inl hname) (.base (.plain (.leaf hleaf))) hlater⟩

theorem Link.derives {u w : List Token} {x : Term} (hw : Link ctx .index w)
    (hx : Derives ctx (.one .primary) u x) : ∃ y, Derives ctx (.one .unary) (u ++ w) y := by
  cases hw with
  | index1 hi => exact ⟨_, .index1 hx hi⟩
  | index2 hi hj => exact ⟨_, .index2 hx hi hj⟩

end Factors

namespace Token

variable {ctx : Context} {t : Token}

/-- The token that a phrase starts with behind functions and negations. -/
def core (ctx : Context) (ts : List Token) : Token :=
  lead (ts.dropWhile fun t => decide (t = "!" ∨ ctx.opening t = .call))

theorem core_cons_of_pos {ts : List Token} (h : t = "!" ∨ ctx.opening t = .call) :
    core ctx (t :: ts) = core ctx ts := by
  rw [core, List.dropWhile_cons_of_pos (by simpa using h)]
  rfl

theorem core_cons_of_neg {ts : List Token} (h : ¬ (t = "!" ∨ ctx.opening t = .call)) :
    core ctx (t :: ts) = t := by
  rw [core, List.dropWhile_cons_of_neg (by simpa using h)]
  rfl

end Token

open Token

/-- A dimension of a call starts here: behind the opening angle bracket, or behind a
dimension and a comma. -/
inductive Dimension (ctx : Context) (tokens : List Token) : List Token → Prop
  | first {name ts} (hname : ctx.opening name = .call) (h : name :: "<" :: ts <:+ tokens) :
      Dimension ctx tokens ts
  | next {ts x ts₁} (h : Dimension ctx tokens ts) (hx : Reads ctx (.one .unary) ts x ("," :: ts₁)) :
      Dimension ctx tokens ts₁

/-- Every token that splitting takes apart falls into operands, and stands where a product
may go on: no dimension of a call starts with one, and no two indices follow one. -/
structure Separable (ctx : Context) (tokens : List Token) : Prop where
  operands : ∀ t ∈ tokens, t.Divisible ctx
  dimension : ∀ ts, Dimension ctx tokens ts → (core ctx ts).Whole ctx
  index : ∀ (t : Token) ts x rest, t :: "[" :: ts <:+ tokens → ¬ t.Whole ctx →
    Reads ctx (.one .elements) ts x rest → lead rest ≠ "["

/-- The tokens to be split, and a name for what is called without arguments. -/
structure Separation (ctx : Context) (g : Token) (tokens : List Token) : Prop where
  wellNamed : ctx.WellNamed
  fresh : ctx.Fresh g
  unused : g ∉ split ctx tokens
  separable : Separable ctx tokens

/-- The tokens `u` stand for what lies between `ts` and `rest` after splitting. -/
def Carries (ctx : Context) (g : Token) (u ts rest : List Token) : Prop :=
  ∀ r, Renamed ctx g r (split ctx rest) → Renamed ctx g (u ++ r) (split ctx ts)

/-- They also start with a token of the same kind. -/
structure Leads (ctx : Context) (g : Token) (u ts rest : List Token) : Prop where
  carries : Carries ctx g u ts rest
  bracket : ∀ s ∈ brackets, lead u = s → lead ts = s
  juxtaposes : (lead ts).Juxtaposes → (lead u).Juxtaposes

section Carrying

variable {ctx : Context} {g s : Token} {tokens u v ts ts₁ rest : List Token}

theorem Carries.nil : Carries ctx g [] ts ts := fun _ h => h

theorem Carries.append (hu : Carries ctx g u ts ts₁) (hv : Carries ctx g v ts₁ rest) :
    Carries ctx g (u ++ v) ts rest := by
  intro r hr
  rw [List.append_assoc]
  exact hu _ (hv r hr)

theorem split_cons_of_whole (h : s.Whole ctx) (ts : List Token) :
    split ctx (s :: ts) = s :: split ctx ts := by
  rw [split, List.flatMap_cons, show s.pieces ctx = [s] from h]
  rfl

/-- A sign stands for itself. -/
theorem Carries.sign (h : Separation ctx g tokens) (hs : s.IsSign) (hu : Carries ctx g u ts rest) :
    Carries ctx g (s :: u) (s :: ts) rest := by
  intro r hr
  have hcall : ctx.opening s ≠ .call := fun hcall => by
    have hname := h.wellNamed.isIdentifier_of_isFunction (Context.isFunction_of_opening hcall)
    rw [hs.1] at hname
    cases hname
  have hne : s ≠ g := by
    rintro rfl
    have hname := hs.1
    rw [h.fresh.isIdentifier] at hname
    cases hname
  rw [split_cons_of_whole hs.whole]
  exact .kept (Context.opening_apart h.wellNamed h.fresh hcall hne) (fun hc => absurd hc hcall)
    (hu r hr)

theorem Carries.close (h : Separation ctx g tokens) (hs : s.IsSign) :
    Carries ctx g [s] (s :: rest) rest :=
  .sign h hs .nil

theorem Leads.sign (h : Separation ctx g tokens) (hs : s.IsSign) (hu : Carries ctx g u ts rest) :
    Leads ctx g (s :: u) (s :: ts) rest :=
  ⟨.sign h hs hu, fun _ _ heq => heq, fun hstart => hstart⟩

theorem Leads.append (hu : Leads ctx g u ts ts₁) (hne : u ≠ []) (hv : Carries ctx g v ts₁ rest) :
    Leads ctx g (u ++ v) ts rest := by
  refine ⟨hu.carries.append hv, ?_, ?_⟩
  · rw [lead_append hne]
    exact hu.bracket
  · rw [lead_append hne]
    exact hu.juxtaposes

end Carrying

/-- What is left behind the first factor of a tight phrase: nothing, or the other pieces of
the token that the phrase starts with, the last of them perhaps with an index. -/
inductive Extra (ctx : Context) (g : Token) (ts rest : List Token) : List Token → Prop
  | none : Extra ctx g ts rest []
  | pieces {ps} (hne : ps ≠ []) (hps : ∀ p ∈ ps, p.IsFactor (ctx.apart g))
      (hcore : ¬ (core ctx ts).Whole ctx) (hrest : core ctx ts :: rest <:+ ts) :
      Extra ctx g ts rest ps
  | indexed {ps w} (hne : ps ≠ []) (hps : ∀ p ∈ ps, p.IsFactor (ctx.apart g))
      (hcore : ¬ (core ctx ts).Whole ctx) (hw : Link (ctx.apart g) .index w)
      (hstop : lead rest ≠ "[") : Extra ctx g ts rest (ps ++ w)

/-- A phrase after splitting. -/
def Loose (ctx : Context) (g : Token) (p : Phrase) (ts rest : List Token) : Prop :=
  ∃ u x, Derives (ctx.apart g) (.one p) u x ∧ Leads ctx g u ts rest

/-- A phrase that is too tight for a product may leave factors behind it. -/
def Tight (ctx : Context) (g : Token) (p : Phrase) (ts rest : List Token) : Prop :=
  ∃ u x v, Derives (ctx.apart g) (.one p) u x ∧ Extra ctx g ts rest v ∧ Leads ctx g (u ++ v) ts rest

/-- A factor of a product becomes one or several. -/
def Factored (ctx : Context) (g : Token) (ts rest : List Token) : Prop :=
  ∃ u x v later, Derives (ctx.apart g) (.one .power) u x ∧
    Derives (ctx.apart g) (.more .factors) v later ∧ Leads ctx g (u ++ v) ts rest

/-- What an item becomes by splitting. Only a product gets more operands by it. -/
def Item.Image (ctx : Context) (g : Token) : (i : Item) → i.Value → List Token → List Token → Prop
  | one .primary, _, ts, rest => Tight ctx g .primary ts rest
  | one .unary, _, ts, rest => Tight ctx g .unary ts rest
  | one .power, _, ts, rest => Factored ctx g ts rest
  | one p, _, ts, rest => Loose ctx g p ts rest
  | more k, later, ts, rest => ∃ v later', Derives (ctx.apart g) (.more k) v later' ∧
      (k ≠ .factors → later'.length = later.length) ∧ Carries ctx g v ts rest
  | dimensions, _, ts, rest => ∃ d dims, Derives (ctx.apart g) .dimensions d dims ∧
      Carries ctx g d ts rest

/-- Where an item starts within the tokens. -/
def Item.Placed (ctx : Context) (tokens : List Token) : Item → List Token → Prop
  | one _, ts => ts <:+ tokens
  | more k, ts => ts <:+ tokens ∧ (k = .dimensions → ∀ us, ts = "," :: us → Dimension ctx tokens us)
  | dimensions, ts => ts <:+ tokens ∧ ∀ us, ts = "<" :: us → Dimension ctx tokens us

theorem Reads.suffix {ctx : Context} {i : Item} {ts rest : List Token} {x : i.Value}
    (h : Reads ctx i ts x rest) : rest <:+ ts := by
  obtain ⟨u, rfl, -⟩ := h.derives
  exact List.suffix_append u rest

section Phrases

variable {ctx : Context} {g t : Token} {tokens ts ts₁ rest v : List Token} {p : Phrase}

theorem Extra.cons (h : Extra ctx g ts rest v) (ht : t = "!" ∨ ctx.opening t = .call) :
    Extra ctx g (t :: ts) rest v := by
  have hcore : core ctx (t :: ts) = core ctx ts := core_cons_of_pos ht
  cases h with
  | none => exact .none
  | pieces hne hps hwhole hrest =>
    refine .pieces hne hps (hcore ▸ hwhole) ?_
    rw [hcore]
    exact hrest.trans (List.suffix_cons _ _)
  | indexed hne hps hwhole hw hstop => exact .indexed hne hps (hcore ▸ hwhole) hw hstop

/-- Where the first token is left whole there is one factor. -/
theorem Extra.eq_nil (h : Extra ctx g ts rest v) (hwhole : (core ctx ts).Whole ctx) : v = [] := by
  cases h with
  | none => rfl
  | pieces _ _ hcore | indexed _ _ hcore => exact absurd hwhole hcore

/-- What is left behind is a row of factors, the last together with what follows it. -/
theorem Extra.factors {z : List Token} (h : Extra ctx g ts rest v) (hne : v ≠ [])
    (hz : ∀ u x, Derives (ctx.apart g) (.one .unary) u x →
      ∃ y, Derives (ctx.apart g) (.one .power) (u ++ z) y) :
    ∃ later, Derives (ctx.apart g) (.more .factors) (v ++ z) later := by
  cases h with
  | none => exact absurd rfl hne
  | pieces hps hfactors =>
    refine Derives.factors hps hfactors fun p hp => ?_
    obtain ⟨-, l, hleaf⟩ := hfactors p hp
    exact hz [p] _ (.plain (.leaf hleaf))
  | indexed hps hfactors _ hw =>
    rw [List.append_assoc]
    refine Derives.factors hps hfactors fun p hp => ?_
    obtain ⟨-, l, hleaf⟩ := hfactors p hp
    obtain ⟨y, hy⟩ := hw.derives (.leaf hleaf)
    exact hz _ y hy

theorem Extra.more (h : Extra ctx g ts rest v) :
    ∃ later, Derives (ctx.apart g) (.more .factors) v later := by
  by_cases hne : v = []
  · exact ⟨[], hne ▸ .stop⟩
  · obtain ⟨later, hlater⟩ := h.factors hne (z := []) fun u x hx =>
      ⟨x, (List.append_nil u).symm ▸ .base hx⟩
    exact ⟨later, List.append_nil v ▸ hlater⟩

theorem Tight.single {u : List Token} {x : Term} (hx : Derives (ctx.apart g) (.one p) u x)
    (hu : Leads ctx g u ts rest) : Tight ctx g p ts rest :=
  ⟨u, x, [], hx, .none, (List.append_nil u).symm ▸ hu⟩

theorem Tight.base (h : Tight ctx g .unary ts rest) : Factored ctx g ts rest := by
  obtain ⟨u, x, v, hx, hv, hleads⟩ := h
  obtain ⟨later, hlater⟩ := hv.more
  exact ⟨u, x, v, later, .base hx, hlater, hleads⟩

/-- The exponent belongs to the last factor of the base. -/
theorem Tight.power (hsep : Separation ctx g tokens) (hbase : Tight ctx g .unary ts ("^" :: ts₁))
    (hexponent : Tight ctx g .unary ts₁ rest) : Factored ctx g ts rest := by
  obtain ⟨u, x, v, hx, hv, hleads⟩ := hbase
  obtain ⟨u', y, v', hy, hv', hleads'⟩ := hexponent
  obtain ⟨later', hlater'⟩ := hv'.more
  have hne : u ++ v ≠ [] := List.append_ne_nil_of_left_ne_nil (hx.ne_nil rfl) v
  have hall := hleads.append hne (.sign hsep (by decide) hleads'.carries)
  by_cases hnone : v = []
  · subst hnone
    refine ⟨u ++ "^" :: u', _, v', later', .power hx hy, hlater', ?_⟩
    simpa using hall
  · obtain ⟨later, hlater⟩ := hv.factors hnone (z := "^" :: u') fun w z hz => ⟨_, .power hz hy⟩
    refine ⟨u, x, _, _, .base hx, hlater.more_append hlater', ?_⟩
    simpa using hall

/-- An index belongs to the last factor, which cannot have another. -/
theorem Tight.index {w : List Token} {y : Term} (hsep : Separation ctx g tokens)
    (hts : ts <:+ tokens) (h : Tight ctx g .primary ts ("[" :: ts₁))
    (hw : Link (ctx.apart g) .index w) (hcarries : Carries ctx g w ("[" :: ts₁) rest)
    (hy : Reads ctx (.one .elements) ts₁ y rest) : Tight ctx g .unary ts rest := by
  obtain ⟨u, x, v, hx, hv, hleads⟩ := h
  have hne : u ++ v ≠ [] := List.append_ne_nil_of_left_ne_nil (hx.ne_nil rfl) v
  have hall := hleads.append hne hcarries
  cases hv with
  | none =>
    obtain ⟨z, hz⟩ := hw.derives hx
    refine ⟨u ++ w, z, [], hz, .none, ?_⟩
    simpa using hall
  | pieces hne hps hcore hrest =>
    have hstop := hsep.separable.index _ _ _ _ (hrest.trans hts) hcore hy
    refine ⟨u, x, _, .plain hx, .indexed hne hps hcore hw hstop, ?_⟩
    rwa [List.append_assoc] at hall
  | indexed _ _ _ _ hstop =>
    -- the last factor has an index, and no second one follows
    exact absurd rfl hstop

end Phrases

section Tokens

variable {ctx : Context} {g t : Token} {tokens u ts rest : List Token}

theorem Renamed.leaves (hsep : Separation ctx g tokens) {ps us : List Token}
    (hleaf : ∀ p ∈ ps, ∃ l, ctx.opening p = .leaf l) (hne : g ∉ ps) (h : Renamed ctx g ts us) :
    Renamed ctx g (ps ++ ts) (ps ++ us) := by
  induction ps with
  | nil => exact h
  | cons p ps ih =>
    obtain ⟨⟨l, hl⟩, hleaf⟩ := List.forall_mem_cons.1 hleaf
    obtain ⟨hp, hps⟩ := not_or.1 (mt List.mem_cons.2 hne)
    have hcall : ctx.opening p ≠ .call := by simp [hl]
    exact .kept (Context.opening_apart hsep.wellNamed hsep.fresh hcall (Ne.symm hp))
      (fun hc => absurd hc hcall) (ih hleaf hps)

/-- The pieces of an operand stand for it. -/
theorem Leads.operand (hsep : Separation ctx g tokens) (hts : t :: rest <:+ tokens)
    (hleaf : ∀ p ∈ pieces ctx t, ∃ l, ctx.opening p = .leaf l) :
    Leads ctx g (pieces ctx t) (t :: rest) rest := by
  have ht : t ∈ tokens := hts.subset List.mem_cons_self
  have hne : g ∉ pieces ctx t :=
    fun hg => hsep.unused (List.mem_flatMap.2 ⟨t, ht, hg⟩)
  have hlead : lead (pieces ctx t) = lead (split ctx (t :: rest)) :=
    (lead_append (pieces_ne_nil ctx t) _).symm
  refine ⟨fun r hr => hr.leaves hsep hleaf hne, ?_, ?_⟩
  · exact fun s hs heq => lead_split hs (hlead.symm.trans heq)
  · obtain ⟨p, ps, hpieces⟩ := List.exists_cons_of_ne_nil (pieces_ne_nil ctx t)
    rw [hpieces]
    rintro (hname | rfl)
    · exact .inl (isIdentifier_of_pieces hname hpieces)
    · have hwhole : pieces ctx "(" = ["("] := IsSign.whole (by decide)
      rw [hwhole] at hpieces
      obtain ⟨rfl, -⟩ := List.cons.inj hpieces
      exact .inr rfl

/-- A leaf becomes its pieces, the first of which is a leaf as well. -/
theorem Tight.leaf (hsep : Separation ctx g tokens) {l : Leaf} (ht : ctx.opening t = .leaf l)
    (hts : t :: rest <:+ tokens) : Tight ctx g .primary (t :: rest) rest := by
  have hmem : t ∈ tokens := hts.subset List.mem_cons_self
  obtain ⟨hleaf, hname⟩ := (hsep.separable.operands t hmem).leaves hsep.wellNamed ht
  have hleads := Leads.operand hsep hts hleaf
  have hapart : ∀ p ∈ pieces ctx t, ∃ l, (ctx.apart g).opening p = .leaf l := by
    intro p hp
    obtain ⟨l, hl⟩ := hleaf p hp
    have hne : p ≠ g := by
      rintro rfl
      exact hsep.unused (List.mem_flatMap.2 ⟨t, hmem, hp⟩)
    exact ⟨l, (Context.opening_apart hsep.wellNamed hsep.fresh (by simp [hl]) hne).trans hl⟩
  obtain ⟨p, ps, hpieces⟩ := List.exists_cons_of_ne_nil (pieces_ne_nil ctx t)
  rw [hpieces] at hleads hapart
  obtain ⟨⟨l', hl'⟩, hps⟩ := List.forall_mem_cons.1 hapart
  refine ⟨[p], _, ps, .leaf hl', ?_, hleads⟩
  by_cases hne : ps = []
  · exact hne ▸ .none
  have hwhole : ¬ t.Whole ctx := by
    intro hwhole
    rw [show pieces ctx t = [t] from hwhole] at hpieces
    exact hne (List.cons.inj hpieces).2.symm
  have hcore : core ctx (t :: rest) = t := by
    refine core_cons_of_neg ?_
    rintro (rfl | hcall)
    · rw [hsep.wellNamed.opening_of_symbolic (by decide)] at ht
      cases ht
    · rw [ht] at hcall
      cases hcall
  refine .pieces hne (fun q hq => ⟨?_, hps q hq⟩) ?_ ?_
  · rw [hpieces, List.tail_cons] at hname
    exact hname q hq
  · rw [hcore]
    exact hwhole
  · rw [hcore]

/-- A function that is called with arguments, or applied, keeps its name. -/
theorem Leads.call (hsep : Separation ctx g tokens) (ht : ctx.opening t = .call) {n : Nat}
    (hne : n ≠ 0) (hn : n ∈ ctx.arities t)
    (hlist : 0 ∈ ctx.arities t → lead ts ≠ "(" ∧ lead ts ≠ "<") (hu : Carries ctx g u ts rest) :
    Leads ctx g (t :: u) (t :: ts) rest := by
  refine ⟨fun r hr => ?_, fun _ _ heq => heq, fun hstart => hstart⟩
  rw [split_cons_of_whole (whole_of_call hsep.wellNamed ht)]
  refine .kept ((Context.opening_apart_call hsep.fresh ht hne hn).trans ht.symm) ?_ (hu r hr)
  intro _ hzero
  obtain ⟨hparen, hangle⟩ := hlist hzero
  exact ⟨mt (lead_split (by decide)) hparen, mt (lead_split (by decide)) hangle⟩

/-- A function that is called without arguments gets the fresh name. -/
theorem Leads.called (hsep : Separation ctx g tokens) (ht : ctx.opening t = .call)
    (hzero : 0 ∈ ctx.arities t) (hu : Carries ctx g u ts rest) :
    Leads ctx g (g :: u) (t :: ts) rest := by
  refine ⟨fun r hr => ?_, ?_, fun _ => .inl hsep.fresh.isIdentifier⟩
  · rw [split_cons_of_whole (whole_of_call hsep.wellNamed ht)]
    exact .called ht hzero (hu r hr)
  · have hname : ∀ s ∈ brackets, isIdentifier s = false := by decide
    rintro s hs rfl
    rw [lead_cons] at hs
    exact absurd hsep.fresh.isIdentifier (by simp [hname g hs])

end Tokens

theorem Tier.isSign {t : Tier} : ∀ op ∈ t.operators, op.IsSign := by
  cases t <;> decide

theorem Series.isSign {k : Series} : ∀ op ∈ k.operators, op.IsSign := by
  cases k <;> decide

section Rebuilding

variable {ctx : Context} {g : Token} {tokens ts ts₁ rest : List Token}

theorem Item.image_tier {t : Tier} {x : Term} (h : (Item.one t.operand).Image ctx g x ts rest) :
    Loose ctx g t.operand ts rest := by
  cases t <;> exact h

/-- The operands of a list are loose, the dimensions of a call because they are left whole. -/
theorem Item.image_operand {k : Series} (hsep : Separation ctx g tokens) (hk : k ≠ .factors)
    (hdimension : k = .dimensions → Dimension ctx tokens ts) {x : Term}
    (h : (Item.one k.operand).Image ctx g x ts rest) : Loose ctx g k.operand ts rest := by
  cases k with
  | factors => exact absurd rfl hk
  | summands | terms | rows => exact h
  | dimensions =>
    obtain ⟨u, y, v, hy, hv, hleads⟩ := h
    obtain rfl := hv.eq_nil (hsep.separable.dimension ts (hdimension rfl))
    rw [List.append_nil] at hleads
    exact ⟨u, y, hy, hleads⟩

/-- A list goes on behind a comma. -/
theorem Item.Placed.comma {k : Series} {x : Term}
    (hread : Reads ctx (.one k.operand) ts x ts₁) (hts : ts <:+ tokens)
    (hdimension : k = .dimensions → Dimension ctx tokens ts) :
    (Item.more k).Placed ctx tokens ts₁ := by
  refine ⟨hread.suffix.trans hts, ?_⟩
  rintro rfl us rfl
  exact (hdimension rfl).next hread

/-- A list that is no list of dimensions goes on anywhere. -/
theorem Item.Placed.listed {k : Series} {x : Term}
    (hread : Reads ctx (.one k.operand) ts x ts₁) (hts : ts <:+ tokens) (hk : k ≠ .dimensions) :
    (Item.more k).Placed ctx tokens ts₁ :=
  .comma hread hts fun h => absurd h hk

/-- The dimensions of a call start behind its name. -/
theorem Item.Placed.name {t : Token} (ht : ctx.opening t = .call) (hts : t :: ts <:+ tokens) :
    Item.dimensions.Placed ctx tokens ts := by
  refine ⟨(List.suffix_cons _ _).trans hts, ?_⟩
  rintro us rfl
  exact .first ht hts

/-- Further operands of a series after splitting. -/
theorem Item.image_step {k : Series} {j : Joint} {x : Term} {later : List (Token × Term)}
    (hsep : Separation ctx g tokens)
    (hdimension : k = .dimensions → Dimension ctx tokens (j.past ts))
    (hjoint : k.joint? (lead ts) = some j)
    (hx : (Item.one k.operand).Image ctx g x (j.past ts) ts₁)
    (hlater : (Item.more k).Image ctx g later ts₁ rest) :
    (Item.more k).Image ctx g ((j.operator, x) :: later) ts rest := by
  obtain ⟨v, later', hlater, hlength, hv⟩ := hlater
  have hne : lead ts ≠ Token.endMark := by
    intro hend
    rw [hend, k.joint?_endMark] at hjoint
    cases hjoint
  have hcons : ts = lead ts :: ts.tail := eq_cons_of_lead rfl hne
  by_cases hk : k = .factors
  · subst hk
    obtain ⟨u, y, w, ys, hy, hys, hu⟩ := hx
    have hall := hu.carries.append hv
    rcases Series.of_joint? hjoint with ⟨rfl, hop⟩ | ⟨rfl, -, hstart⟩
    · refine ⟨_, _, .step hop hy (hys.more_append hlater), fun h => absurd rfl h, ?_⟩
      rw [hcons, ← List.append_assoc]
      exact .sign hsep (Series.isSign _ hop) hall
    · have hstart := hu.juxtaposes hstart
      rw [lead_append (hy.ne_nil rfl)] at hstart
      refine ⟨_, _, .juxtaposed hstart hy (hys.more_append hlater), fun h => absurd rfl h, ?_⟩
      rwa [← List.append_assoc]
  · rcases Series.of_joint? hjoint with ⟨rfl, hop⟩ | ⟨-, rfl, -⟩
    · obtain ⟨u, y, hy, hu⟩ := Item.image_operand hsep hk hdimension hx
      refine ⟨_, _, .step hop hy hlater, fun h => congrArg Nat.succ (hlength h), ?_⟩
      rw [hcons]
      exact .sign hsep (Series.isSign _ hop) (hu.carries.append hv)
    · exact absurd rfl hk

end Rebuilding

/-- What is read before splitting is derived after it. The induction is on the reading; all
phrases keep their places, but a factor may become several. -/
theorem Reads.image {ctx : Context} {g : Token} {tokens : List Token}
    (hsep : Separation ctx g tokens) {i : Item} {ts rest : List Token} {x : i.Value}
    (h : Reads ctx i ts x rest) (hts : i.Placed ctx tokens ts) : i.Image ctx g x ts rest := by
  have hbehind {s : Token} {us : List Token} (h : s :: us <:+ tokens) : us <:+ tokens :=
    (List.suffix_cons _ _).trans h
  induction h with
  | single _ _ ih =>
    obtain ⟨u, y, hy, hu⟩ := Item.image_tier (ih hts)
    exact ⟨u, y, .single hy, hu⟩
  | joined hread hop _ ihx ihy =>
    obtain ⟨u, x', hx, hu⟩ := Item.image_tier (ihx hts)
    obtain ⟨v, y', hy, hv⟩ := Item.image_tier (ihy (hbehind (hread.suffix.trans hts)))
    exact ⟨_, _, .joined hx hop hy,
      hu.append (hx.ne_nil rfl) (.sign hsep (Tier.isSign _ hop) hv.carries)⟩
  | sum hread _ ihx ihlater =>
    obtain ⟨u, x', hx, hu⟩ := ihx hts
    obtain ⟨v, later, hlater, -, hv⟩ := ihlater (.listed hread hts (by decide))
    exact ⟨_, _, .sum hx hlater, hu.append (hx.ne_nil rfl) hv⟩
  | product hread _ ihx ihlater =>
    obtain ⟨u, x', w, xs, hx, hxs, hu⟩ := ihx hts
    obtain ⟨v, later, hlater, -, hv⟩ := ihlater (.listed hread hts (by decide))
    -- the factors that the first one left behind go in front of the others
    have hne : u ++ w ≠ [] := List.append_ne_nil_of_left_ne_nil (hx.ne_nil rfl) w
    have hall := hu.append hne hv
    rw [List.append_assoc] at hall
    exact ⟨_, _, .product hx (hxs.more_append hlater), hall⟩
  | base _ _ ih => exact (ih hts).base
  | power hread _ ihx ihy =>
    exact (ihx hts).power hsep (ihy (hbehind (hread.suffix.trans hts)))
  | minus _ ih =>
    obtain ⟨u, x', hx, hu⟩ := ih (hbehind hts)
    exact .single (.minus hx) (.sign hsep (by decide) hu.carries)
  | not _ ih =>
    obtain ⟨u, x', v, hx, hv, hu⟩ := ih (hbehind hts)
    exact ⟨_, _, v, .not hx, hv.cons (.inl rfl), .sign hsep (by decide) hu.carries⟩
  | plain _ _ _ _ ih =>
    obtain ⟨u, x', v, hx, hv, hu⟩ := ih hts
    exact ⟨u, x', v, .plain hx, hv, hu⟩
  | index1 _ _ hread hi ihx ihi =>
    obtain ⟨w, i', hi', hw⟩ := ihi (hbehind (hread.suffix.trans hts))
    have hopen := hi.lead_ne_close hsep.wellNamed rfl (by decide)
    have hstop : Series.terms.joint? "]" = none := by decide
    exact (ihx hts).index hsep hts (.index1 hi')
      (.sign hsep (by decide) (hw.carries.append (.close hsep (by decide))))
      (.elements hopen hi (.stop hstop))
  | index2 _ _ hread hi hj ihx ihi ihj =>
    have hplace := hbehind (hread.suffix.trans hts)
    obtain ⟨w, i', hi', hw⟩ := ihi hplace
    obtain ⟨w', j', hj', hw'⟩ := ihj (hbehind (hi.suffix.trans hplace))
    have hopen := hi.lead_ne_close hsep.wellNamed rfl (by decide)
    have hsecond := hw'.carries.append (.close hsep (by decide))
    have hcomma : Series.terms.joint? "," = some (.written ",") := by decide
    have hstop : Series.terms.joint? "]" = none := by decide
    exact (ihx hts).index hsep hts (.index2 hi' hj')
      (.sign hsep (by decide) (hw.carries.append (.sign hsep (by decide) hsecond)))
      (.elements hopen hi (.step hcomma hj (.stop hstop)))
  | leaf ht => exact .leaf hsep ht hts
  | paren ht _ ih =>
    obtain rfl := Context.eq_symbol_of_opening ht rfl
    obtain ⟨u, x', hx, hu⟩ := ih (hbehind hts)
    have hall := hu.carries.append (.close hsep (by decide))
    exact .single (.paren hx) (.sign hsep (by decide) hall)
  | bar ht _ ih =>
    obtain rfl := Context.eq_symbol_of_opening ht rfl
    obtain ⟨u, x', hx, hu⟩ := ih (hbehind hts)
    have hall := hu.carries.append (.close hsep (by decide))
    exact .single (.bar hx) (.sign hsep (by decide) hall)
  | vector ht hrow _ ih =>
    obtain rfl := Context.eq_symbol_of_opening ht rfl
    obtain ⟨u, x', hx, hu⟩ := ih (hbehind hts)
    have hrow' : lead u ≠ "[" := fun heq => hrow (hu.bracket "[" (by decide) heq)
    exact .single (.vector hrow' hx) (.sign hsep (by decide) hu.carries)
  | matrix ht hread _ ihx ihlater =>
    obtain rfl := Context.eq_symbol_of_opening ht rfl
    obtain ⟨u, x', hx, hu⟩ := ihx (hbehind hts)
    obtain ⟨v, later, hlater, -, hv⟩ := ihlater (.listed hread (hbehind hts) (by decide))
    have hall := hu.carries.append (hv.append (.close hsep (by decide)))
    exact .single (.matrix hx hlater) (.sign hsep (by decide) hall)
  | set ht hread _ ihx ihlater =>
    obtain rfl := Context.eq_symbol_of_opening ht rfl
    obtain ⟨u, x', hx, hu⟩ := ihx (hbehind hts)
    obtain ⟨v, later, hlater, -, hv⟩ := ihlater (.listed hread (hbehind hts) (by decide))
    have hall := hu.carries.append (hv.append (.close hsep (by decide)))
    exact .single (.set hx hlater) (.sign hsep (by decide) hall)
  | callNone ht _ hcount ih =>
    obtain ⟨d, dims, hdims, hd⟩ := ih (.name ht hts)
    have hzero : 0 ∈ (ctx.apart g).arities g := Context.mem_arities_apart.2 (.inl ⟨rfl, rfl⟩)
    have hall := hd.append (.sign hsep (by decide) (.close hsep (by decide)))
    -- the name of the call is replaced, since it may take arguments elsewhere
    exact .single (.callNone (Context.opening_fresh hsep.fresh) hdims hzero)
      (.called hsep ht hcount hall)
  | @callSome t _ dims _ x _ later _ ht hreadDims hsome hread _ hcount ihdims ihx ihlater =>
    have hplace := hbehind (hreadDims.suffix.trans (hbehind hts))
    obtain ⟨d, dims', hdims, hd⟩ := ihdims (.name ht hts)
    obtain ⟨u, x', hx, hu⟩ := ihx hplace
    obtain ⟨v, later', hlater, hlength, hv⟩ := ihlater (.listed hread hplace (by decide))
    have hne : (Term.operands x later).length ≠ 0 := by simp [Term.operands]
    have hcount' : (Term.operands x' later').length ∈ (ctx.apart g).arities t := by
      have heq : (Term.operands x' later').length = (Term.operands x later).length := by
        simp only [Term.operands, List.length_cons, List.length_map, hlength (by decide)]
      rw [heq]
      exact Context.mem_arities_apart.2 (.inr ⟨hne, hcount⟩)
    have hargs := hu.carries.append (hv.append (.close hsep (by decide)))
    have hall := hd.append (.sign hsep (by decide) hargs)
    exact .single (.callSome (Context.opening_apart_call hsep.fresh ht hne hcount) hdims hx
      hlater hcount') (.call hsep ht hne hcount (fun hzero => absurd hzero hsome) hall)
  | @apply t _ _ _ ht hangle hparen hone _ ih =>
    obtain ⟨u, x', v, hx, hv, hu⟩ := ih (hbehind hts)
    have hlead : lead (u ++ v) = lead u := lead_append (hx.ne_nil rfl) v
    have hangle' : lead u ≠ "<" := fun heq => hangle (hu.bracket _ (by decide) (hlead.trans heq))
    have hparen' : lead u ≠ "(" := fun heq => hparen (hu.bracket _ (by decide) (hlead.trans heq))
    have hcall := Context.opening_apart_call hsep.fresh ht one_ne_zero hone
    have hone' : 1 ∈ (ctx.apart g).arities t :=
      Context.mem_arities_apart.2 (.inr ⟨one_ne_zero, hone⟩)
    exact ⟨_, _, v, .apply hcall hangle' hparen' hone' hx, hv.cons (.inr ht),
      .call hsep ht one_ne_zero hone (fun _ => ⟨hparen, hangle⟩) hu.carries⟩
  | row _ ih =>
    obtain ⟨u, x', hx, hu⟩ := ih (hbehind hts)
    exact ⟨_, _, .row hx, .sign hsep (by decide) hu.carries⟩
  | empty => exact ⟨_, _, .empty, .sign hsep (by decide) .nil⟩
  | elements _ hread _ ihx ihlater =>
    obtain ⟨u, x', hx, hu⟩ := ihx hts
    obtain ⟨v, later, hlater, -, hv⟩ := ihlater (.listed hread hts (by decide))
    exact ⟨_, _, .elements hx hlater,
      hu.append (hx.ne_nil rfl) (hv.append (.close hsep (by decide)))⟩
  | stop _ => exact ⟨[], [], .stop, fun _ => rfl, .nil⟩
  | @step k j ts _ _ _ _ hjoint hread _ ihx ihlater =>
    have hpast : j.past ts <:+ tokens := by
      cases j with
      | written => exact (List.tail_suffix ts).trans hts.1
      | implied => exact hts.1
    have hdimension : k = .dimensions → Dimension ctx tokens (j.past ts) := by
      rintro rfl
      rcases Series.of_joint? hjoint with ⟨rfl, hop⟩ | ⟨-, hk, -⟩
      · have hcomma : lead ts = "," := List.mem_singleton.1 hop
        exact hts.2 rfl _ (eq_cons_of_lead hcomma (by decide))
      · cases hk
    exact Item.image_step hsep hdimension hjoint (ihx hpast)
      (ihlater (.comma hread hpast hdimension))
  | noDimensions _ => exact ⟨[], [], .noDimensions, .nil⟩
  | dimensions hread _ ihx ihlater =>
    have hdimension := hts.2 _ rfl
    have hplace := hbehind hts.1
    obtain ⟨u, x', hx, hu⟩ := Item.image_operand (k := .dimensions) hsep (by decide)
      (fun _ => hdimension) (ihx hplace)
    obtain ⟨v, later, hlater, -, hv⟩ := ihlater (.comma hread hplace fun _ => hdimension)
    have hall := hu.carries.append (hv.append (.close hsep (by decide)))
    exact ⟨_, _, .dimensions hx hlater, .sign hsep (by decide) hall⟩

end TermReader
