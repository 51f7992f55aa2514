/-!
A chooser draws one position out of a nonempty row of possibilities and passes
its own state on. Nothing is assumed about how it draws, so a statement over
all choosers covers scripted, pseudorandom and adversarial sources alike.
-/

namespace TermReader

/-- Draws a position from 0 up to and including the last one. -/
structure Chooser (ρ : Type) where
  draw : (last : Nat) → ρ → Fin (last + 1) × ρ

/-- Always draws the first possibility. -/
def Chooser.first : Chooser Unit := ⟨fun last s => (⟨0, last.succ_pos⟩, s)⟩

end TermReader
