import TermReader.Proofs.Yields

/-!
Whatever the reader returns is derived by the rules. There is one lemma for each
branch of the reader, which takes a run of the branch apart, and the induction
follows the calls of the reader.
-/

namespace TermReader

namespace Grammar

/-- Whatever is returned for the phrase at the cursor is derived by the rules. -/
def PhraseInverts (ctx : Context) (p : Phrase) (c : Cursor) : Prop :=
  ∀ r, Yields (phrase ctx .terms p c) r → Reads ctx (.one p) c.rest r.value r.next.rest

def CallInverts (ctx : Context) (c : Cursor) (hend : c.rest ≠ []) : Prop :=
  ∀ r, Yields (call ctx .terms c hend) r → ctx.opening c.lookahead = .call →
    Reads ctx (.one .primary) c.rest r.value r.next.rest

def ArgumentsInvert (ctx : Context) (c : Cursor) : Prop :=
  ∀ r, Yields (arguments ctx .terms c) r → ∃ x later ts, r.value = Term.operands x later ∧
    Reads ctx (.one .term) c.rest x ts ∧ Reads ctx (.more .terms) ts later r.next.rest

def SeriesInverts (ctx : Context) (k : Series) (c : Cursor) : Prop :=
  ∀ r, Yields (series ctx .terms k c) r → ∃ ts,
    Reads ctx (.one k.operand) c.rest r.value.1 ts ∧ Reads ctx (.more k) ts r.value.2 r.next.rest

def MoreInverts (ctx : Context) (k : Series) (c : Cursor) : Prop :=
  ∀ r, Yields (more ctx .terms k c) r → Reads ctx (.more k) c.rest r.value r.next.rest

def DimensionsInvert (ctx : Context) (c : Cursor) : Prop :=
  ∀ r, Yields (dimensions ctx .terms c) r → Reads ctx .dimensions c.rest r.value r.next.rest

variable {ctx : Context} {c : Cursor}

namespace PhraseInverts

theorem tier {t : Tier} (hleft : PhraseInverts ctx t.operand c)
    (hright : ∀ c₁ : Cursor, c₁.size < c.size → PhraseInverts ctx t.operand c₁.next) :
    PhraseInverts ctx (.tier t) c := by
  intro r hr
  unfold phrase at hr
  obtain ⟨⟨x, c₁, h₁⟩, hx, hr⟩ := Yields.bind_iff.1 hr
  dsimp only at hr
  split at hr
  · next hop =>
    obtain ⟨⟨y, c₂, h₂⟩, hy, hr⟩ := Yields.bind_iff.1 hr
    simp only [Builder.terms_makeNode, pure_bind] at hr
    obtain rfl := Yields.pure_iff.1 hr
    have hcons := Cursor.rest_eq_cons rfl (Tier.ne_endMark hop)
    exact .joined (hcons ▸ hleft _ hx) hop (hright c₁ h₁ _ hy)
  · next hop =>
    obtain rfl := Yields.pure_iff.1 hr
    exact .single (hleft _ hx) hop

theorem sum (hseries : SeriesInverts ctx .summands c) : PhraseInverts ctx .sum c := by
  intro r hr
  unfold phrase at hr
  obtain ⟨⟨⟨x, later⟩, c₁, h₁⟩, hx, hr⟩ := Yields.bind_iff.1 hr
  simp only [Builder.terms_makeSum, pure_bind] at hr
  obtain rfl := Yields.pure_iff.1 hr
  obtain ⟨ts, hfirst, hlater⟩ := hseries _ hx
  exact .sum hfirst hlater

theorem product (hseries : SeriesInverts ctx .factors c) : PhraseInverts ctx .product c := by
  intro r hr
  unfold phrase at hr
  obtain ⟨⟨⟨x, later⟩, c₁, h₁⟩, hx, hr⟩ := Yields.bind_iff.1 hr
  simp only [Builder.terms_makeProduct, pure_bind] at hr
  obtain rfl := Yields.pure_iff.1 hr
  obtain ⟨ts, hfirst, hlater⟩ := hseries _ hx
  exact .product hfirst hlater

theorem power (hbase : PhraseInverts ctx .unary c)
    (hexponent : ∀ c₁ : Cursor, c₁.size < c.size → PhraseInverts ctx .unary c₁.next) :
    PhraseInverts ctx .power c := by
  intro r hr
  unfold phrase at hr
  obtain ⟨⟨x, c₁, h₁⟩, hx, hr⟩ := Yields.bind_iff.1 hr
  dsimp only at hr
  split at hr
  · next hop =>
    obtain ⟨⟨y, c₂, h₂⟩, hy, hr⟩ := Yields.bind_iff.1 hr
    simp only [Builder.terms_makeNode, pure_bind] at hr
    obtain rfl := Yields.pure_iff.1 hr
    have hcons := Cursor.rest_eq_cons hop (by decide)
    exact .power (hcons ▸ hbase _ hx) (hexponent c₁ h₁ _ hy)
  · next hop =>
    obtain rfl := Yields.pure_iff.1 hr
    exact .base (hbase _ hx) hop

theorem minus (hminus : c.lookahead = "-") (hproduct : PhraseInverts ctx .product c.next) :
    PhraseInverts ctx .unary c := by
  intro r hr
  unfold phrase at hr
  simp only [dif_pos hminus, Builder.terms_makeNode, pure_bind] at hr
  obtain ⟨⟨x, c₁, h₁⟩, hx, hr⟩ := Yields.bind_iff.1 hr
  obtain rfl := Yields.pure_iff.1 hr
  rw [Cursor.rest_eq_cons hminus (by decide)]
  exact .minus (hproduct _ hx)

theorem not (hminus : c.lookahead ≠ "-") (hnot : c.lookahead = "!")
    (hprimary : PhraseInverts ctx .primary c.next) : PhraseInverts ctx .unary c := by
  intro r hr
  unfold phrase at hr
  simp only [dif_neg hminus, dif_pos hnot, Builder.terms_makeNode, pure_bind] at hr
  obtain ⟨⟨x, c₁, h₁⟩, hx, hr⟩ := Yields.bind_iff.1 hr
  obtain rfl := Yields.pure_iff.1 hr
  rw [Cursor.rest_eq_cons hnot (by decide)]
  exact .not (hprimary _ hx)

theorem plain (hminus : c.lookahead ≠ "-") (hnot : c.lookahead ≠ "!")
    (hprimary : PhraseInverts ctx .primary c)
    (hfirst : ∀ c₁ : Cursor, c₁.size < c.size → PhraseInverts ctx .term c₁.next)
    (hsecond : ∀ c₁ : Cursor, c₁.size < c.size → ∀ c₂ : Cursor, c₂.size < c₁.next.size →
      PhraseInverts ctx .term c₂.next) : PhraseInverts ctx .unary c := by
  intro r hr
  unfold phrase at hr
  simp only [dif_neg hminus, dif_neg hnot, Builder.terms_makeNode, pure_bind] at hr
  obtain ⟨⟨x, c₁, h₁⟩, hx, hr⟩ := Yields.bind_iff.1 hr
  dsimp only at hr
  split at hr
  · next hopen =>
    have hx' := Cursor.rest_eq_cons hopen (by decide) ▸ hprimary _ hx
    obtain ⟨⟨i, c₂, h₂⟩, hi, hr⟩ := Yields.bind_iff.1 hr
    dsimp only at hr
    split at hr
    · next hcomma =>
      have hi' := Cursor.rest_eq_cons hcomma (by decide) ▸ hfirst c₁ h₁ _ hi
      obtain ⟨⟨j, c₃, h₃⟩, hj, hr⟩ := Yields.bind_iff.1 hr
      obtain ⟨hclose, hr⟩ := Yields.expected hr (by decide)
      obtain rfl := Yields.pure_iff.1 hr
      exact .index2 hminus hnot hx' hi' (hclose ▸ hsecond c₁ h₁ c₂ h₂ _ hj)
    · obtain ⟨hclose, hr⟩ := Yields.expected hr (by decide)
      obtain rfl := Yields.pure_iff.1 hr
      exact .index1 hminus hnot hx' (hclose ▸ hfirst c₁ h₁ _ hi)
  · next hopen =>
    obtain rfl := Yields.pure_iff.1 hr
    exact .plain hminus hnot (hprimary _ hx) hopen

theorem row (hopen : c.lookahead = "[") (helements : PhraseInverts ctx .elements c.next) :
    PhraseInverts ctx .row c := by
  intro r hr
  unfold phrase at hr
  simp only [dif_pos hopen] at hr
  obtain ⟨⟨x, c₁, h₁⟩, hx, hr⟩ := Yields.bind_iff.1 hr
  obtain rfl := Yields.pure_iff.1 hr
  rw [Cursor.rest_eq_cons hopen (by decide)]
  exact .row (helements _ hx)

theorem noRow (hopen : c.lookahead ≠ "[") : PhraseInverts ctx .row c := by
  intro r hr
  unfold phrase at hr
  simp only [dif_neg hopen] at hr
  exact (Yields.throw_iff.1 hr).elim

theorem empty (hclose : c.lookahead = "]") : PhraseInverts ctx .elements c := by
  intro r hr
  unfold phrase at hr
  simp only [dif_pos hclose, Builder.terms_makeNode, pure_bind] at hr
  obtain rfl := Yields.pure_iff.1 hr
  rw [Cursor.rest_eq_cons hclose (by decide)]
  exact .empty

theorem elements (hclose : c.lookahead ≠ "]") (hseries : SeriesInverts ctx .terms c) :
    PhraseInverts ctx .elements c := by
  intro r hr
  unfold phrase at hr
  simp only [dif_neg hclose, Builder.terms_makeNode, pure_bind] at hr
  obtain ⟨⟨⟨x, later⟩, c₁, h₁⟩, hx, hr⟩ := Yields.bind_iff.1 hr
  obtain ⟨hlast, hr⟩ := Yields.expected hr (by decide)
  obtain rfl := Yields.pure_iff.1 hr
  obtain ⟨ts, hfirst, hlater⟩ := hseries _ hx
  exact .elements hclose hfirst (hlast ▸ hlater)

/-! A primary phrase is what its first token opens. -/

section Primary

variable (hend : c.rest ≠ [])

include hend

theorem leaf {l : Leaf} (hopening : ctx.opening c.lookahead = .leaf l) :
    PhraseInverts ctx .primary c := by
  intro r hr
  unfold phrase at hr
  simp only [dif_neg hend, hopening, Builder.terms_makeLeaf, pure_bind] at hr
  obtain rfl := Yields.pure_iff.1 hr
  dsimp only
  rw [Cursor.rest_eq_lookahead_cons hend]
  exact .leaf hopening

theorem call (hopening : ctx.opening c.lookahead = .call) (hcall : CallInverts ctx c hend) :
    PhraseInverts ctx .primary c := by
  intro r hr
  unfold phrase at hr
  simp only [dif_neg hend, hopening] at hr
  exact hcall r hr hopening

theorem paren (hopening : ctx.opening c.lookahead = .paren)
    (hterm : PhraseInverts ctx .term c.next) : PhraseInverts ctx .primary c := by
  intro r hr
  unfold phrase at hr
  simp only [dif_neg hend, hopening] at hr
  obtain ⟨⟨x, c₁, h₁⟩, hx, hr⟩ := Yields.bind_iff.1 hr
  obtain ⟨hclose, hr⟩ := Yields.expected hr (by decide)
  obtain rfl := Yields.pure_iff.1 hr
  dsimp only
  rw [Cursor.rest_eq_lookahead_cons hend]
  exact .paren hopening (hclose ▸ hterm _ hx)

theorem bar (hopening : ctx.opening c.lookahead = .bar)
    (hterm : PhraseInverts ctx .term c.next) : PhraseInverts ctx .primary c := by
  intro r hr
  unfold phrase at hr
  simp only [dif_neg hend, hopening, Builder.terms_makeNode, pure_bind] at hr
  obtain ⟨⟨x, c₁, h₁⟩, hx, hr⟩ := Yields.bind_iff.1 hr
  obtain ⟨hclose, hr⟩ := Yields.expected hr (by decide)
  obtain rfl := Yields.pure_iff.1 hr
  dsimp only
  rw [Cursor.rest_eq_lookahead_cons hend]
  exact .bar hopening (hclose ▸ hterm _ hx)

theorem matrix (hopening : ctx.opening c.lookahead = .bracket) (hrow : c.next.lookahead = "[")
    (hseries : SeriesInverts ctx .rows c.next) : PhraseInverts ctx .primary c := by
  intro r hr
  unfold phrase at hr
  simp only [dif_neg hend, hopening, if_pos hrow, Builder.terms_makeNode, pure_bind] at hr
  obtain ⟨⟨⟨x, later⟩, c₁, h₁⟩, hx, hr⟩ := Yields.bind_iff.1 hr
  obtain ⟨hclose, hr⟩ := Yields.expected hr (by decide)
  obtain rfl := Yields.pure_iff.1 hr
  obtain ⟨ts, hfirst, hlater⟩ := hseries _ hx
  dsimp only
  rw [Cursor.rest_eq_lookahead_cons hend]
  exact .matrix hopening hfirst (hclose ▸ hlater)

theorem vector (hopening : ctx.opening c.lookahead = .bracket) (hrow : c.next.lookahead ≠ "[")
    (helements : PhraseInverts ctx .elements c.next) : PhraseInverts ctx .primary c := by
  intro r hr
  unfold phrase at hr
  simp only [dif_neg hend, hopening, if_neg hrow] at hr
  obtain ⟨⟨x, c₁, h₁⟩, hx, hr⟩ := Yields.bind_iff.1 hr
  obtain rfl := Yields.pure_iff.1 hr
  dsimp only
  rw [Cursor.rest_eq_lookahead_cons hend]
  exact .vector hopening hrow (helements _ hx)

theorem set (hopening : ctx.opening c.lookahead = .brace)
    (hseries : SeriesInverts ctx .terms c.next) : PhraseInverts ctx .primary c := by
  intro r hr
  unfold phrase at hr
  simp only [dif_neg hend, hopening, Builder.terms_makeNode, pure_bind] at hr
  obtain ⟨⟨⟨x, later⟩, c₁, h₁⟩, hx, hr⟩ := Yields.bind_iff.1 hr
  obtain ⟨hclose, hr⟩ := Yields.expected hr (by decide)
  obtain rfl := Yields.pure_iff.1 hr
  obtain ⟨ts, hfirst, hlater⟩ := hseries _ hx
  dsimp only
  rw [Cursor.rest_eq_lookahead_cons hend]
  exact .set hopening hfirst (hclose ▸ hlater)

theorem excess {digits : Nat} (hopening : ctx.opening c.lookahead = .excess digits) :
    PhraseInverts ctx .primary c := by
  intro r hr
  unfold phrase at hr
  simp only [dif_neg hend, hopening] at hr
  exact (Yields.throw_iff.1 hr).elim

theorem unexpected (hopening : ctx.opening c.lookahead = .none) :
    PhraseInverts ctx .primary c := by
  intro r hr
  unfold phrase at hr
  simp only [dif_neg hend, hopening] at hr
  exact (Yields.throw_iff.1 hr).elim

end Primary

theorem ended (hend : c.rest = []) : PhraseInverts ctx .primary c := by
  intro r hr
  unfold phrase at hr
  simp only [dif_pos hend] at hr
  exact (Yields.throw_iff.1 hr).elim

end PhraseInverts

/-- A call with an argument list takes what the arities of its name ask for; a call
without one takes an operand. -/
theorem callInverts (hend : c.rest ≠ []) (hdimensions : DimensionsInvert ctx c.next)
    (harguments : ∀ c₁ : Cursor, c₁.size < c.next.size + 1 → ArgumentsInvert ctx c₁.next)
    (hoperand : ∀ c₁ : Cursor, c₁.size < c.next.size + 1 → PhraseInverts ctx .unary c₁) :
    CallInverts ctx c hend := by
  intro r hr hopening
  unfold call at hr
  simp only [Builder.terms_makeNode, pure_bind] at hr
  obtain ⟨⟨dims, c₁, h₁⟩, hdims, hr⟩ := Yields.bind_iff.1 hr
  dsimp only at hr
  split at hr
  · next hparen =>
    have hdims' := Cursor.rest_eq_cons hparen (by decide) ▸ hdimensions _ hdims
    split at hr
    · next hnone =>
      obtain ⟨hclose, hr⟩ := Yields.expected hr (by decide)
      simp only [List.length_nil, if_pos hnone] at hr
      obtain rfl := Yields.pure_iff.1 hr
      dsimp only
      rw [Cursor.rest_eq_lookahead_cons hend]
      exact .callNone hopening (hclose ▸ hdims') hnone
    · next hsome =>
      obtain ⟨⟨args, c₂, h₂⟩, hargs, hr⟩ := Yields.bind_iff.1 hr
      obtain ⟨hclose, hr⟩ := Yields.expected hr (by decide)
      obtain ⟨x, later, ts, hvalue, hfirst, hlater⟩ := harguments c₁ h₁ _ hargs
      dsimp only at hvalue
      subst hvalue
      dsimp only at hr
      split at hr
      · next hcount =>
        obtain rfl := Yields.pure_iff.1 hr
        dsimp only
        rw [Cursor.rest_eq_lookahead_cons hend]
        exact .callSome hopening hdims' hsome hfirst (hclose ▸ hlater) hcount
      · exact (Yields.throw_iff.1 hr).elim
  · next hparen =>
    split at hr
    · next hone =>
      obtain ⟨⟨x, c₂, h₂⟩, hx, hr⟩ := Yields.bind_iff.1 hr
      obtain rfl := Yields.pure_iff.1 hr
      have hnil : dims = [] := List.isEmpty_iff.1 hone.2
      subst hnil
      obtain ⟨hrest, hangle⟩ := (hdimensions _ hdims).dimensions_nil
      dsimp only at hrest
      dsimp only
      rw [Cursor.rest_eq_lookahead_cons hend]
      exact .apply hopening hangle (hrest ▸ hparen) hone.1 (hrest ▸ hoperand c₁ h₁ _ hx)
    · exact (Yields.throw_iff.1 hr).elim

theorem argumentsInvert (hseries : SeriesInverts ctx .terms c) : ArgumentsInvert ctx c := by
  intro r hr
  unfold arguments at hr
  obtain ⟨⟨⟨x, later⟩, c₁, h₁⟩, hx, hr⟩ := Yields.bind_iff.1 hr
  obtain rfl := Yields.pure_iff.1 hr
  obtain ⟨ts, hfirst, hlater⟩ := hseries _ hx
  exact ⟨x, later, ts, rfl, hfirst, hlater⟩

theorem seriesInverts {k : Series} (hfirst : PhraseInverts ctx k.operand c)
    (hmore : ∀ c₁ : Cursor, c₁.size < c.size → MoreInverts ctx k c₁) :
    SeriesInverts ctx k c := by
  intro r hr
  unfold series at hr
  obtain ⟨⟨x, c₁, h₁⟩, hx, hr⟩ := Yields.bind_iff.1 hr
  obtain ⟨⟨later, c₂, h₂⟩, hlater, hr⟩ := Yields.bind_iff.1 hr
  obtain rfl := Yields.pure_iff.1 hr
  exact ⟨c₁.rest, hfirst _ hx, hmore c₁ h₁ _ hlater⟩

namespace MoreInverts

variable {k : Series}

theorem stop (hjoint : k.joint? c.lookahead = none) : MoreInverts ctx k c := by
  intro r hr
  unfold more at hr
  simp only [hjoint] at hr
  obtain rfl := Yields.pure_iff.1 hr
  exact .stop hjoint

theorem step {j : Joint} (hjoint : k.joint? c.lookahead = some j)
    (hfirst : PhraseInverts ctx k.operand (c.past j))
    (hmore : ∀ c₁ : Cursor, c₁.size < (c.past j).size → MoreInverts ctx k c₁) :
    MoreInverts ctx k c := by
  intro r hr
  unfold more at hr
  simp only [hjoint] at hr
  obtain ⟨⟨x, c₁, h₁⟩, hx, hr⟩ := Yields.bind_iff.1 hr
  obtain ⟨⟨later, c₂, h₂⟩, hlater, hr⟩ := Yields.bind_iff.1 hr
  obtain rfl := Yields.pure_iff.1 hr
  exact .step hjoint (Cursor.rest_past c j ▸ hfirst _ hx) (hmore c₁ h₁ _ hlater)

end MoreInverts

namespace DimensionsInvert

theorem some (hopen : c.lookahead = "<") (hseries : SeriesInverts ctx .dimensions c.next) :
    DimensionsInvert ctx c := by
  intro r hr
  unfold dimensions at hr
  simp only [if_pos hopen] at hr
  obtain ⟨⟨⟨x, later⟩, c₁, h₁⟩, hx, hr⟩ := Yields.bind_iff.1 hr
  obtain ⟨hclose, hr⟩ := Yields.expected hr (by decide)
  obtain rfl := Yields.pure_iff.1 hr
  obtain ⟨ts, hfirst, hlater⟩ := hseries _ hx
  rw [Cursor.rest_eq_cons hopen (by decide)]
  exact .dimensions hfirst (hclose ▸ hlater)

theorem none (hopen : c.lookahead ≠ "<") : DimensionsInvert ctx c := by
  intro r hr
  unfold dimensions at hr
  simp only [if_neg hopen] at hr
  obtain rfl := Yields.pure_iff.1 hr
  exact .noDimensions hopen

end DimensionsInvert

/-- Whatever the reader returns is derived by the rules. -/
theorem inverts (ctx : Context) :
    (∀ p c, PhraseInverts ctx p c) ∧ (∀ c hend, CallInverts ctx c hend) ∧
      (∀ c, ArgumentsInvert ctx c) ∧ (∀ k c, SeriesInverts ctx k c) ∧
      (∀ k c, MoreInverts ctx k c) ∧ (∀ c, DimensionsInvert ctx c) := by
  refine phrase.mutual_induct ctx _ _ _ _ _ _ ?tier ?sum ?product ?power ?minus ?not ?plain
    ?ended ?leaf ?excess ?call ?paren ?bar ?matrix ?vector ?set ?unexpected ?row ?noRow ?empty
    ?elements ?list ?arguments ?series ?stop ?step ?dimensions ?noDimensions
  case tier => exact fun _ _ _ hleft hright => .tier hleft hright
  case sum => exact fun _ hseries => .sum hseries
  case product => exact fun _ hseries => .product hseries
  case power => exact fun _ hbase hexponent => .power hbase hexponent
  case minus => exact fun _ hminus _ hproduct => .minus hminus hproduct
  case not => exact fun _ hminus hnot _ hprimary => .not hminus hnot hprimary
  case plain =>
    exact fun _ hminus hnot hprimary hfirst hsecond => .plain hminus hnot hprimary hfirst hsecond
  case ended => exact fun _ hend => .ended hend
  case leaf => exact fun _ hend _ _ hopening => .leaf hend hopening
  case excess => exact fun _ hend _ _ hopening => .excess hend hopening
  case call => exact fun _ hend _ hopening hcall => .call hend hopening hcall
  case paren => exact fun _ hend _ hopening hterm => .paren hend hopening hterm
  case bar => exact fun _ hend _ hopening hterm => .bar hend hopening hterm
  case matrix => exact fun _ hend _ hopening hrow hseries => .matrix hend hopening hrow hseries
  case vector => exact fun _ hend _ hopening hrow helements => .vector hend hopening hrow helements
  case set => exact fun _ hend _ hopening hseries => .set hend hopening hseries
  case unexpected => exact fun _ hend _ hopening => .unexpected hend hopening
  case row => exact fun _ hopen _ helements => .row hopen helements
  case noRow => exact fun _ hopen => .noRow hopen
  case empty => exact fun _ hclose => .empty hclose
  case elements => exact fun _ hclose hseries => .elements hclose hseries
  case list =>
    exact fun _ hend _ hdimensions harguments hoperand =>
      callInverts hend hdimensions harguments hoperand
  case arguments => exact fun _ hseries => argumentsInvert hseries
  case series => exact fun _ _ _ hfirst hmore => seriesInverts hfirst hmore
  case stop => exact fun _ _ hjoint => .stop hjoint
  case step => exact fun _ _ _ hjoint _ _ _ hfirst hmore => .step hjoint hfirst hmore
  case dimensions => exact fun _ hopen _ hseries => .some hopen hseries
  case noDimensions => exact fun _ hopen => .none hopen

end Grammar

end TermReader
