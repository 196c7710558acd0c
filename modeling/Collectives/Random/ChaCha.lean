import Collectives.Random.Words

/-!
# ChaCha with twelve rounds

A block is computed from a key and a counter: the state, four rows of four words, goes through six
double rounds and is added to itself. `seeded` is the source of words made of the blocks 0, 1, ...
of a key that is expanded from one word.
-/

namespace Collectives.Random.ChaCha

/-- Four 32-bit words, one for each column of the state. -/
structure Row where
  w0 : UInt32
  w1 : UInt32
  w2 : UInt32
  w3 : UInt32
  deriving DecidableEq, Repr

namespace Row

@[inline] def zip (f : UInt32 → UInt32 → UInt32) (x y : Row) : Row :=
  ⟨f x.w0 y.w0, f x.w1 y.w1, f x.w2 y.w2, f x.w3 y.w3⟩

@[inline] def map (f : UInt32 → UInt32) (x : Row) : Row := ⟨f x.w0, f x.w1, f x.w2, f x.w3⟩

def shift (x : Row) : Row := ⟨x.w1, x.w2, x.w3, x.w0⟩

def toList (x : Row) : List UInt32 := [x.w0, x.w1, x.w2, x.w3]

end Row

/-- Rotation to the left, for `0 < bits < 32`. -/
def rotateLeft (bits word : UInt32) : UInt32 := word <<< bits ||| word >>> (32 - bits)

structure State where
  a : Row
  b : Row
  c : Row
  d : Row
  deriving DecidableEq, Repr

namespace State

def mix (bits : UInt32) (x y z : Row) : Row × Row :=
  let x := x.zip (· + ·) y
  (x, (z.zip (· ^^^ ·) x).map (rotateLeft bits))

def columns (s : State) : State :=
  let (a, d) := mix 16 s.a s.b s.d
  let (c, b) := mix 12 s.c d s.b
  let (a, d) := mix 8 a b d
  let (c, b) := mix 7 c d b
  ⟨a, b, c, d⟩

/-- The quarter round on every diagonal: the diagonals are shifted into columns and back. -/
def diagonals (s : State) : State :=
  let t := columns ⟨s.a, s.b.shift, s.c.shift.shift, s.d.shift.shift.shift⟩
  ⟨t.a, t.b.shift.shift.shift, t.c.shift.shift, t.d.shift⟩

def doubleRound (s : State) : State := s.columns.diagonals

def add (s t : State) : State :=
  ⟨s.a.zip (· + ·) t.a, s.b.zip (· + ·) t.b, s.c.zip (· + ·) t.c, s.d.zip (· + ·) t.d⟩

def toList (s : State) : List UInt32 := s.a.toList ++ s.b.toList ++ s.c.toList ++ s.d.toList

end State

structure Key where
  low : Row
  high : Row
  deriving DecidableEq, Repr

/-- The text `expand 32-byte k` as little-endian words. -/
def constants : Row := ⟨0x61707865, 0x3320646e, 0x79622d32, 0x6b206574⟩

def block (key : Key) (counter : UInt64) : List UInt32 :=
  let start : State :=
    ⟨constants, key.low, key.high, ⟨counter.toUInt32, (counter >>> 32).toUInt32, 0, 0⟩⟩
  (start.add (Nat.repeat State.doubleRound 6 start)).toList

/-- One step of the generator that expands a seed: a linear congruence whose state is permuted into
a word. -/
def expand (state : UInt64) : UInt32 × UInt64 :=
  let state := state * 6364136223846793005 + 11634580027462260723
  let word := (((state >>> 18) ^^^ state) >>> 27).toUInt32
  let turn := (state >>> 59).toUInt32
  (word >>> turn ||| word <<< ((32 - turn) % 32), state)

def expandRow (state : UInt64) : Row × UInt64 :=
  let (w0, state) := expand state
  let (w1, state) := expand state
  let (w2, state) := expand state
  let (w3, state) := expand state
  (⟨w0, w1, w2, w3⟩, state)

def keyOf (seed : UInt64) : Key :=
  let (low, state) := expandRow seed
  ⟨low, (expandRow state).1⟩

/-- The word at `position`: each word takes two words of a block, the low half first. -/
def seeded (seed : UInt64) : Words :=
  let key := keyOf seed
  fun position =>
    let words := block key (UInt64.ofNat (position / 8))
    let half (index : Nat) : UInt64 := (words.getD (2 * (position % 8) + index) 0).toUInt64
    half 0 ||| half 1 <<< 32

end Collectives.Random.ChaCha
