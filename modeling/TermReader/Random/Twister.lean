/-!
The Mersenne twister with a state of 624 words of 32 bits. Words are drawn from
the state in order; when all have been drawn, the whole state is advanced by
the twist. Seeding mixes the words of a key into a fixed initial state.
-/

namespace TermReader

structure Twister where
  words : Array UInt32
  drawn : Nat

namespace Twister

def size : Nat := 624

/-- The distance at which the twist combines words. -/
def shift : Nat := 397

def word (state : Array UInt32) (i : Nat) : UInt32 := state.getD i 0

/-- Every word follows from its predecessor by a linear step. -/
def linearWords (seed : UInt32) : Array UInt32 :=
  (List.range (size - 1)).foldl
    (fun state i =>
      let last := word state i
      state.push ((last ^^^ (last >>> 30)) * 1812433253 + (i + 1).toUInt32))
    #[seed]

/-- Places from 1 up to 623 in a circle. -/
def place (step : Nat) : Nat := step % (size - 1) + 1

/-- A new first word equals the last one whenever the circle closes. -/
def close (state : Array UInt32) (i : Nat) : Array UInt32 :=
  if i + 1 = size then state.setIfInBounds 0 (word state (size - 1)) else state

/-- Mixes the words of a key into the state. -/
def ofKey (key : Array UInt32) : Twister :=
  let rounds := max size key.size
  let mixed := (List.range rounds).foldl
    (fun state step =>
      let i := place step
      let j := step % key.size
      let before := word state (i - 1)
      let value := (word state i ^^^ ((before ^^^ (before >>> 30)) * 1664525))
        + key.getD j 0 + j.toUInt32
      close (state.setIfInBounds i value) i)
    (linearWords 19650218)
  let spread := (List.range (size - 1)).foldl
    (fun state step =>
      let i := place (rounds + step)
      let before := word state (i - 1)
      let value := (word state i ^^^ ((before ^^^ (before >>> 30)) * 1566083941)) - i.toUInt32
      close (state.setIfInBounds i value) i)
    mixed
  ⟨spread.setIfInBounds 0 0x80000000, size⟩

/-- The number of different words. -/
def wordCount : Nat := 4294967296

/-- The 32-bit words of a number, least significant first. -/
def keyWords (n : Nat) : List UInt32 :=
  if _h : n < wordCount then [n.toUInt32]
  else (n % wordCount).toUInt32 :: keyWords (n / wordCount)
termination_by n
decreasing_by
  simp only [wordCount] at *
  omega

/-- The sign of a seed does not count. -/
def ofSeed (seed : Int) : Twister := ofKey (keyWords seed.natAbs).toArray

/-- Advances every word of the state once. -/
def twist (state : Array UInt32) : Array UInt32 :=
  (List.range size).foldl
    (fun state i =>
      let joined := (word state i &&& 0x80000000) ||| (word state ((i + 1) % size) &&& 0x7fffffff)
      let mask : UInt32 := if joined &&& 1 = 0 then 0 else 0x9908b0df
      state.setIfInBounds i (word state ((i + shift) % size) ^^^ (joined >>> 1) ^^^ mask))
    state

/-- Spreads the bits of a word before it is handed out. -/
def temper (w : UInt32) : UInt32 :=
  let w := w ^^^ (w >>> 11)
  let w := w ^^^ ((w <<< 7) &&& 0x9d2c5680)
  let w := w ^^^ ((w <<< 15) &&& 0xefc60000)
  w ^^^ (w >>> 18)

/-- The next word, and the state after it. -/
def next (g : Twister) : UInt32 × Twister :=
  if g.drawn < size then (temper (word g.words g.drawn), ⟨g.words, g.drawn + 1⟩)
  else
    let words := twist g.words
    (temper (word words 0), ⟨words, 1⟩)

/-- Draws the leading bits of new words until they are no more than the last
position. A word fails with a chance below one half, so the bound on the number
of words is not met in practice; were it met, the first position is taken. -/
def drawWithin (last : Nat) : Nat → Twister → Fin (last + 1) × Twister
  | 0, g => (⟨0, Nat.succ_pos last⟩, g)
  | tries + 1, g =>
    let (w, g) := g.next
    let value := w.toNat >>> (31 - (last + 1).log2)
    if h : value < last + 1 then (⟨value, h⟩, g) else drawWithin last tries g

def draw (last : Nat) (g : Twister) : Fin (last + 1) × Twister := drawWithin last 1000 g

end Twister

end TermReader
