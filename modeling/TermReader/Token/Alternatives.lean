import TermReader.Token.Basic
import TermReader.Random.Chooser

/-!
Groups of alternative operators, such as one of plus and minus in braces, are
resolved to one operator each. A token stream first falls into segments, single
tokens and groups, from left to right; then one operator is drawn for every
group. A brace that opens no group stays a token: it opens a set.
-/

namespace TermReader.Token

/-- The operators between which a group may choose. -/
def isArithmetic (t : Token) : Bool := ["+", "-", "*", "/"].contains t

/-- The operators of a group; there is at least one. -/
structure Alternatives where
  first : Token
  others : List Token
  deriving DecidableEq

namespace Alternatives

def operators (g : Alternatives) : List Token := g.first :: g.others

def pick (g : Alternatives) (i : Fin (g.others.length + 1)) : Token := g.operators.get i

def cons (op : Token) (g : Alternatives) : Alternatives := ⟨op, g.operators⟩

/-- Reads operators separated by bars up to the closing brace, before which one
bar more may stand, and returns what follows the brace. -/
def read? : List Token → Option (Alternatives × List Token)
  | op :: sep :: rest =>
    if !isArithmetic op then none
    else if sep = "\x7d" then some (⟨op, []⟩, rest)
    else if sep = "|" then
      if rest.head? = some "\x7d" then some (⟨op, []⟩, rest.tail)
      else (read? rest).map fun (g, after) => (g.cons op, after)
    else none
  | _ => none

theorem length_of_read? (tokens : List Token) (g : Alternatives) (after : List Token)
    (h : read? tokens = some (g, after)) : after.length < tokens.length := by
  fun_induction read? tokens generalizing g after with
  | case1 => simp at h
  | case2 op rest =>
    obtain ⟨-, rfl⟩ := Prod.mk.inj (Option.some.inj h)
    simp only [List.length_cons]
    omega
  | case3 op rest =>
    obtain ⟨-, rfl⟩ := Prod.mk.inj (Option.some.inj h)
    simp only [List.length_tail, List.length_cons]
    omega
  | case4 op rest _ _ _ ih =>
    obtain ⟨⟨g', after'⟩, hread, heq⟩ := Option.map_eq_some_iff.1 h
    obtain ⟨-, rfl⟩ := Prod.mk.inj heq
    have := ih g' after' hread
    simp only [List.length_cons]
    omega
  | case5 => simp at h
  | case6 => simp at h

end Alternatives

/-- A part of a token stream: one token, or one group. -/
inductive Segment
  | literal (token : Token)
  | group (alternatives : Alternatives)
  deriving DecidableEq

/-- The segments of a token stream from left to right. -/
def segments : List Token → List Segment
  | [] => []
  | t :: rest =>
    if t = "\x7b" then
      match _h : Alternatives.read? rest with
      | some (g, after) => .group g :: segments after
      | none => .literal t :: segments rest
    else .literal t :: segments rest
termination_by tokens => tokens.length
decreasing_by
  · have := Alternatives.length_of_read? rest g after _h
    simp only [List.length_cons]
    omega
  · simp
  · simp

theorem segments_cons {t : Token} (ht : t ≠ "\x7b") (rest : List Token) :
    segments (t :: rest) = .literal t :: segments rest := by
  rw [segments, if_neg ht]

theorem segments_group {rest after : List Token} {g : Alternatives}
    (h : Alternatives.read? rest = some (g, after)) :
    segments ("\x7b" :: rest) = .group g :: segments after := by
  rw [segments, if_pos rfl]
  split
  · next g' after' h' =>
    obtain ⟨rfl, rfl⟩ := Prod.mk.inj (Option.some.inj (h.symm.trans h'))
    rfl
  · next hnone =>
    rw [h] at hnone
    cases hnone

theorem segments_brace {rest : List Token} (h : Alternatives.read? rest = none) :
    segments ("\x7b" :: rest) = .literal "\x7b" :: segments rest := by
  rw [segments, if_pos rfl]
  split
  · next hsome =>
    rw [h] at hsome
    cases hsome
  · rfl

/-- One draw: the operators of the group and the one chosen. -/
structure Choice where
  alternatives : Alternatives
  chosen : Token
  deriving DecidableEq

/-- A token stream without groups, and the draws made for it in order. -/
structure Resolution where
  tokens : List Token
  choices : List Choice
  deriving DecidableEq

/-- Draws once for every group, from left to right. -/
def resolveSegments {ρ : Type} (chooser : Chooser ρ) : List Segment → ρ → Resolution × ρ
  | [], state => (⟨[], []⟩, state)
  | .literal t :: rest, state =>
    let (later, final) := resolveSegments chooser rest state
    (⟨t :: later.tokens, later.choices⟩, final)
  | .group g :: rest, state =>
    let (i, next) := chooser.draw g.others.length state
    let (later, final) := resolveSegments chooser rest next
    (⟨g.pick i :: later.tokens, ⟨g, g.pick i⟩ :: later.choices⟩, final)

/-- Nothing is drawn for single tokens, and they stay as they are. -/
theorem resolveSegments_literals_append {ρ : Type} (chooser : Chooser ρ) (u : List Token)
    (later : List Segment) (state : ρ) :
    resolveSegments chooser (u.map .literal ++ later) state =
      (⟨u ++ (resolveSegments chooser later state).1.tokens,
        (resolveSegments chooser later state).1.choices⟩,
        (resolveSegments chooser later state).2) := by
  induction u with
  | nil => rfl
  | cons t u ih =>
    rw [List.map_cons, List.cons_append, resolveSegments, ih]
    rfl

/-- Replaces every group of a token stream by one of its operators. -/
def resolve {ρ : Type} (chooser : Chooser ρ) (tokens : List Token) (state : ρ) : Resolution × ρ :=
  resolveSegments chooser (segments tokens) state

end TermReader.Token
