import TermReader.Proofs.Wrapping
import TermReader.Random.Dice
import Mathlib.Data.List.Forall2

/-!
What the groups of a token stream are, and what becomes of them. A stream falls into single
tokens and groups in one way only, if every group that is met from the left counts as one. The
groups, and so the operators that are drawn from, are the same for all random sources. Which
operator replaces a group is up to the source, and any operator of the group can be the one.
-/

namespace TermReader

namespace Dice

/-- A scripted number below the number of possibilities stands for itself. -/
theorem position_val {last : Nat} (i : Fin (last + 1)) : position last i.val = i := by
  have hmod : ((i.val : Int) % (last + 1 : Nat)) = i.val :=
    Int.emod_eq_of_lt (Int.natCast_nonneg _) (Int.ofNat_lt.2 i.isLt)
  exact Fin.ext ((congrArg Int.toNat hmod).trans (Int.toNat_natCast _))

/-- The next draw of a script that has been used up to a number takes that number. -/
theorem draw_script (last : Nat) (used : List Int) (pick : Int) (picks : List Int) :
    chooser.draw last (.scripted (used ++ pick :: picks) used.length) =
      (position last pick, .scripted (used ++ pick :: picks) (used.length + 1)) := by
  have hmod : used.length % (used ++ pick :: picks).length = used.length :=
    Nat.mod_eq_of_lt (by simp)
  have hpick : (used ++ pick :: picks).getD used.length 0 = pick := by simp
  simp only [chooser, draw, hmod, hpick]

end Dice

namespace Token

namespace Alternatives

/-- The operators of a group with bars between them. -/
def spelling (g : Alternatives) : List Token := g.first :: g.others.flatMap (["|", ·])

/-- The tokens are a group with these operators. A bar may stand behind the last one. -/
structure Spells (g : Alternatives) (w : List Token) : Prop where
  arithmetic : ∀ op ∈ g.operators, isArithmetic op = true
  braced : ∃ bar ∈ [[], ["|"]], w = "\x7b" :: (g.spelling ++ (bar ++ ["\x7d"]))

/-- A group with one operator more in front. -/
theorem Spells.cons {op : Token} {g : Alternatives} {w : List Token} (hop : isArithmetic op = true)
    (h : g.Spells ("\x7b" :: w)) : (g.cons op).Spells ("\x7b" :: op :: "|" :: w) := by
  obtain ⟨bar, hbar, heq⟩ := h.braced
  refine ⟨List.forall_mem_cons.2 ⟨hop, h.arithmetic⟩, bar, hbar, ?_⟩
  rw [List.cons_injective heq]
  rfl

/-- What is read behind an opening brace is a group. -/
theorem exists_spells_of_read? {tokens after : List Token} {g : Alternatives}
    (h : read? tokens = some (g, after)) : ∃ w, g.Spells ("\x7b" :: w) ∧ tokens = w ++ after := by
  fun_induction read? tokens generalizing g after with
  | case1 => cases h
  | case2 op rest hop =>
    obtain ⟨rfl, rfl⟩ := Prod.mk.inj (Option.some.inj h)
    exact ⟨[op, "\x7d"], ⟨by simpa [operators] using hop, [], by simp, rfl⟩, rfl⟩
  | case3 op rest hop hclose =>
    obtain ⟨rfl, rfl⟩ := Prod.mk.inj (Option.some.inj h)
    obtain ⟨rest, rfl⟩ := List.head?_eq_some_iff.1 hclose
    exact ⟨[op, "|", "\x7d"], ⟨by simpa [operators] using hop, ["|"], by simp, rfl⟩, rfl⟩
  | case4 op rest hop _ _ ih =>
    obtain ⟨⟨g', after'⟩, hread, heq⟩ := Option.map_eq_some_iff.1 h
    obtain ⟨rfl, rfl⟩ := Prod.mk.inj heq
    obtain ⟨w, hw, rfl⟩ := ih hread
    exact ⟨op :: "|" :: w, hw.cons (by simpa using hop), rfl⟩
  | case5 => cases h
  | case6 => cases h

/-- Every group is read, whatever follows it. -/
theorem read?_of_spells {g : Alternatives} {w : List Token} (h : g.Spells ("\x7b" :: w))
    (after : List Token) : read? (w ++ after) = some (g, after) := by
  obtain ⟨hops, bar, hbar, heq⟩ := h
  obtain rfl := List.cons_injective heq
  obtain ⟨first, others⟩ := g
  induction others generalizing first with
  | nil =>
    have hop : isArithmetic first = true := by simpa [operators] using hops
    simp only [List.mem_cons, List.not_mem_nil, or_false] at hbar
    rcases hbar with rfl | rfl
    · simp [spelling, read?, hop]
    · simp [spelling, read?, hop]
  | cons op others ih =>
    obtain ⟨hfirst, hothers⟩ := List.forall_mem_cons.1 hops
    obtain ⟨hop, -⟩ := List.forall_mem_cons.1 hothers
    have hne : op ≠ "\x7d" := by
      rintro rfl
      exact absurd hop (by decide)
    have hrest := ih op hothers rfl
    simp only [spelling, List.flatMap_cons, List.cons_append, List.append_assoc,
      List.nil_append] at hrest ⊢
    rw [read?, if_neg (by simp [hfirst]), if_neg (by decide), if_pos rfl,
      if_neg (by simpa using hne), hrest]
    rfl

end Alternatives

/-- A group stands at the front of the tokens. -/
def StartsGroup (tokens : List Token) : Prop :=
  ∃ (g : Alternatives) (w after : List Token), g.Spells w ∧ tokens = w ++ after

/-- The tokens fall into the segments from left to right. A token is single only if no group
starts at it. -/
inductive Decomposes : List Token → List Segment → Prop
  | nil : Decomposes [] []
  | literal {t rest parts} (hnone : ¬ StartsGroup (t :: rest)) (h : Decomposes rest parts) :
      Decomposes (t :: rest) (.literal t :: parts)
  | group {g w rest parts} (hg : Alternatives.Spells g w) (h : Decomposes rest parts) :
      Decomposes (w ++ rest) (.group g :: parts)

theorem startsGroup_iff {t : Token} {rest : List Token} :
    StartsGroup (t :: rest) ↔ t = "\x7b" ∧ ∃ r, Alternatives.read? rest = some r := by
  constructor
  · rintro ⟨g, w, after, hg, heq⟩
    obtain ⟨bar, -, rfl⟩ := hg.braced
    obtain ⟨rfl, rfl⟩ := List.cons.inj heq
    exact ⟨rfl, _, Alternatives.read?_of_spells hg after⟩
  · rintro ⟨rfl, ⟨g, after⟩, hread⟩
    obtain ⟨w, hw, rfl⟩ := Alternatives.exists_spells_of_read? hread
    exact ⟨g, _, after, hw, rfl⟩

theorem segments_decomposes (tokens : List Token) : Decomposes tokens (segments tokens) := by
  fun_induction segments tokens with
  | case1 => exact .nil
  | case2 rest g after hread ih =>
    obtain ⟨w, hw, rfl⟩ := Alternatives.exists_spells_of_read? hread
    exact .group hw ih
  | case3 rest hread ih =>
    refine .literal (fun h => ?_) ih
    obtain ⟨-, r, hr⟩ := startsGroup_iff.1 h
    rw [hread] at hr
    cases hr
  | case4 t rest ht ih => exact .literal (fun h => ht (startsGroup_iff.1 h).1) ih

/-- There is one way only in which the tokens fall into segments. -/
theorem decomposes_iff {tokens : List Token} {parts : List Segment} :
    Decomposes tokens parts ↔ parts = segments tokens := by
  constructor
  · intro h
    induction h with
    | nil => rw [segments]
    | @literal t rest parts hnone _ ih =>
      rw [startsGroup_iff, not_and, not_exists] at hnone
      by_cases ht : t = "\x7b"
      · subst ht
        rw [segments_brace (Option.eq_none_iff_forall_ne_some.2 (hnone rfl)), ih]
      · rw [segments_cons ht, ih]
    | @group g w rest parts hg _ ih =>
      obtain ⟨bar, -, rfl⟩ := hg.braced
      rw [List.cons_append, segments_group (Alternatives.read?_of_spells hg rest), ih]
  · rintro rfl
    exact segments_decomposes tokens

/-- The groups among segments, in order. -/
def groupsAmong (parts : List Segment) : List Alternatives :=
  parts.filterMap fun
    | .literal _ => none
    | .group g => some g

/-- The segments with one of its own operators for every group, and the choices that led to
them, in order. -/
inductive Resolves : List Segment → List Choice → List Token → Prop
  | nil : Resolves [] [] []
  | literal {t parts choices tokens} (h : Resolves parts choices tokens) :
      Resolves (.literal t :: parts) choices (t :: tokens)
  | group {g op parts choices tokens} (hop : op ∈ g.operators)
      (h : Resolves parts choices tokens) :
      Resolves (.group g :: parts) (⟨g, op⟩ :: choices) (op :: tokens)

theorem Resolves.alternatives_eq {parts : List Segment} {choices : List Choice}
    {tokens : List Token} (h : Resolves parts choices tokens) :
    choices.map (·.alternatives) = groupsAmong parts := by
  induction h with
  | nil => rfl
  | literal _ ih => exact ih
  | group _ _ ih => exact congrArg _ ih

section Draws

variable {ρ : Type} (chooser : Chooser ρ)

/-- Draws once from every group, in order, each time with the state that the draw before it
has left. -/
def drawEach : List Alternatives → ρ → List Choice × ρ
  | [], random => ([], random)
  | g :: gs, random =>
    let (i, next) := chooser.draw g.others.length random
    let (later, final) := drawEach gs next
    (⟨g, g.pick i⟩ :: later, final)

theorem resolveSegments_resolves (parts : List Segment) (random : ρ) :
    Resolves parts (resolveSegments chooser parts random).1.choices
      (resolveSegments chooser parts random).1.tokens := by
  induction parts generalizing random with
  | nil => exact .nil
  | cons part parts ih =>
    cases part with
    | literal t => exact .literal (ih random)
    | group g => exact .group (List.get_mem _ _) (ih _)

theorem resolveSegments_drawEach (parts : List Segment) (random : ρ) :
    ((resolveSegments chooser parts random).1.choices, (resolveSegments chooser parts random).2) =
      drawEach chooser (groupsAmong parts) random := by
  induction parts generalizing random with
  | nil => rfl
  | cons part parts ih =>
    cases part with
    | literal t => exact ih random
    | group g =>
      have hlater := ih (chooser.draw g.others.length random).2
      exact congrArg (fun later => (_ :: later.1, later.2)) hlater

/-- An end mark behind everything stays there, for it closes no group. -/
theorem getLast?_resolve {tokens : List Token} (h : tokens.getLast? = some endMark) (random : ρ) :
    (resolve chooser tokens random).1.tokens.getLast? = some endMark := by
  obtain ⟨before, rfl⟩ := List.getLast?_eq_some_iff.1 h
  have hend := resolve_surrounded (u := []) (v := [endMark]) chooser (by decide) (by decide)
    (by decide) before random
  rw [List.nil_append] at hend
  rw [hend, List.nil_append, List.getLast?_append]
  rfl

end Draws

/-- Any operators of the groups can be drawn, one from each. -/
theorem exists_script {selection : List Token} {groups : List Alternatives}
    (h : List.Forall₂ (fun op g => op ∈ g.operators) selection groups) (used : List Int) :
    ∃ picks, (drawEach Dice.chooser groups (.scripted (used ++ picks) used.length)).1.map
      (·.chosen) = selection := by
  induction h generalizing used with
  | nil => exact ⟨[], rfl⟩
  | @cons op g selection groups hop _ ih =>
    obtain ⟨i, rfl⟩ : ∃ i, g.pick i = op := List.mem_iff_get.1 hop
    obtain ⟨picks, hpicks⟩ := ih (used ++ [(i.val : Int)])
    have hused : used ++ [(i.val : Int)] ++ picks = used ++ (i.val : Int) :: picks := by simp
    rw [hused, List.length_append] at hpicks
    refine ⟨(i.val : Int) :: picks, ?_⟩
    rw [drawEach, Dice.draw_script, Dice.position_val]
    exact congrArg (g.pick i :: ·) hpicks

/-- Groups are resolved exactly. Every token stream falls into single tokens and groups in one
way. The single tokens stay, and every group is replaced by one of its operators, which is drawn
from the operators of this group alone, in one draw for every group from left to right. What is
drawn from is thus the same for all sources, every choice of operators is made by some source,
and an end mark behind all other tokens stays behind them. -/
theorem resolve_exact (tokens : List Token) :
    ∃ parts, (∀ parts', Decomposes tokens parts' ↔ parts' = parts) ∧
      (∀ {ρ : Type} (chooser : Chooser ρ) (random : ρ),
        let resolved := resolve chooser tokens random
        Resolves parts resolved.1.choices resolved.1.tokens ∧
          (resolved.1.choices, resolved.2) = drawEach chooser (groupsAmong parts) random ∧
          resolved.1.choices.map (·.alternatives) = groupsAmong parts ∧
          (tokens.getLast? = some endMark → resolved.1.tokens.getLast? = some endMark)) ∧
      ∀ selection, List.Forall₂ (fun op g => op ∈ g.operators) selection (groupsAmong parts) →
        ∃ picks, (resolve Dice.chooser tokens (Dice.script picks)).1.choices.map (·.chosen) =
          selection := by
  refine ⟨segments tokens, fun parts' => decomposes_iff, fun chooser random => ?_, ?_⟩
  · have hresolves := resolveSegments_resolves chooser (segments tokens) random
    exact ⟨hresolves, resolveSegments_drawEach chooser _ random, hresolves.alternatives_eq,
      fun hend => getLast?_resolve chooser hend random⟩
  · intro selection h
    obtain ⟨picks, hpicks⟩ := exists_script h []
    have hdraws := resolveSegments_drawEach Dice.chooser (segments tokens) (Dice.script picks)
    refine ⟨picks, ?_⟩
    rw [← hpicks]
    exact congrArg (fun drawn => drawn.1.map (·.chosen)) hdraws

/-- A brace that opens no group stays, and the group behind it is resolved. -/
example : segments ["\x7b", "\x7b", "+", "|", "-", "|", "\x7d", "x", "\x7d"] =
    [.literal "\x7b", .group ⟨"+", ["-"]⟩, .literal "x", .literal "\x7d"] := by
  cbv

end Token

end TermReader
