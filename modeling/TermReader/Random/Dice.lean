import TermReader.Random.Chooser
import TermReader.Random.Twister

/-!
The random sources that a reader may be given: a script of numbers that is
repeated for ever, or a seeded generator. A reader that is given none draws from
a generator that is shared by all such readers.
-/

namespace TermReader

inductive Dice
  | shared (generator : Twister)
  | scripted (picks : List Int) (used : Nat)
  | seeded (generator : Twister)

namespace Dice

def script (picks : List Int) : Dice := scripted picks 0

def ofSeed (seed : Int) : Dice := seeded (Twister.ofSeed seed)

def isGiven : Dice → Bool
  | shared _ => false
  | _ => true

/-- The position that a scripted number stands for: its remainder, counted from
zero upwards also for negative numbers. -/
def position (last : Nat) (pick : Int) : Fin (last + 1) :=
  ⟨(pick % (last + 1 : Nat)).toNat, by
    have h := Int.emod_lt_of_pos pick (b := ((last + 1 : Nat) : Int)) (by omega)
    have h' := Int.emod_nonneg pick (b := ((last + 1 : Nat) : Int)) (by omega)
    omega⟩

def draw (last : Nat) : Dice → Fin (last + 1) × Dice
  | shared generator =>
    let (i, generator) := generator.draw last
    (i, shared generator)
  | scripted picks used =>
    (position last (picks.getD (used % picks.length) 0), scripted picks (used + 1))
  | seeded generator =>
    let (i, generator) := generator.draw last
    (i, seeded generator)

def chooser : Chooser Dice := ⟨draw⟩

end Dice

end TermReader
