import TermReader.Grammar.Failure

/-!
A cursor stands before a token of the stream and sees this token alone. It
moves forward one token at a time. What is read from a cursor comes with the
later cursor at which reading goes on.
-/

namespace TermReader

structure Cursor where
  position : Nat
  rest : List Token
  deriving DecidableEq

namespace Cursor

def start (tokens : List Token) : Cursor := ⟨0, tokens⟩

/-- The token at the cursor. -/
def lookahead (c : Cursor) : Token := c.rest.headD Token.endMark

/-- The cursor one token further. Behind the last token it would count on, where a
stream stays. Reading never gets there in a context whose names are identifiers:
the end mark stands last, and as no name it opens no phrase and is not stepped over. -/
def next (c : Cursor) : Cursor := ⟨c.position + 1, c.rest.tail⟩

/-- The number of tokens that are left. -/
def size (c : Cursor) : Nat := c.rest.length

theorem size_next_le (c : Cursor) : c.next.size ≤ c.size := by
  simp [next, size]

theorem size_next_lt (c : Cursor) (h : c.rest ≠ []) : c.next.size < c.size := by
  have := List.length_pos_iff.2 h
  simp only [next, size, List.length_tail]
  omega

theorem rest_ne_nil (c : Cursor) (h : c.lookahead ≠ Token.endMark) : c.rest ≠ [] := by
  intro hnil
  simp [lookahead, hnil] at h

/-- A symbol other than the end mark can be stepped over. -/
theorem size_next_lt_of_eq (c : Cursor) (symbol : Token) (h : c.lookahead = symbol)
    (hsymbol : symbol ≠ Token.endMark) : c.next.size < c.size :=
  c.size_next_lt (c.rest_ne_nil (h ▸ hsymbol))

/-- The rejection of the token at the cursor. -/
def reject (c : Cursor) (reason : Reason) (detail : Option String) : Failure :=
  .rejected ⟨reason, c.lookahead, c.position, detail⟩

end Cursor

/-- A value, and a cursor with fewer than the given number of tokens left. -/
structure Read (bound : Nat) (α : Type) where
  value : α
  next : Cursor
  size_lt : next.size < bound

end TermReader
