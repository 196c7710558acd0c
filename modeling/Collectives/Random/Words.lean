/-!
# Word sources

A source of randomness is an endless sequence of 64-bit words. Who draws from it keeps the position
of the next word, so drawing is a function and two users can share one source.
-/

namespace Collectives.Random

abbrev Words := Nat → UInt64

/-- The words of a list, over and over. An empty list gives zeros. -/
def Words.cycle (words : List UInt64) : Words := fun position =>
  words.getD (position % words.length) 0

abbrev Draw := StateM Nat

def nextWord (words : Words) : Draw UInt64 :=
  modifyGet fun position => (words position, position + 1)

/-- A number from `-span` to `span`, where `2 * span < 2 ^ 64`. A word is scaled to the number of
values; a second word decides whether the lost low half would have carried, unless the low half is
too small for that. -/
def uniform (words : Words) (span : Nat) : Draw Int := do
  let count := 2 * span + 1
  let product := (← nextWord words).toNat * count
  let high := product / UInt64.size
  let low := product % UInt64.size
  if low ≤ UInt64.size - count then
    return Int.ofNat high - span
  let more := (← nextWord words).toNat * count / UInt64.size
  return Int.ofNat (if low + more < UInt64.size then high else high + 1) - span

end Collectives.Random
