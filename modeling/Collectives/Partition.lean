import Collectives.Communicator

/-!
# Partitions

A split groups positions by color: the groups come in ascending order of color, the positions in a
group in ascending order of key and then of position.
-/

namespace Collectives

/-- Where a position came to lie in a partition. -/
structure Placement where
  group : Nat
  localRank : Nat
  deriving DecidableEq, Repr

structure Partition where
  groups : List Communicator
  placement : List Placement
  deriving DecidableEq, Repr

namespace Partition

def palette (colors : List Nat) : List Nat := colors.eraseDups.mergeSort (· ≤ ·)

/-- Whether a key and a position come before another key and position, or are the same. -/
def keyLe (x y : Nat × Nat) : Bool := x.1 < y.1 || (x.1 = y.1 && x.2 ≤ y.2)

def positions (colors keys : List Nat) (color : Nat) : List Nat :=
  let mine := ((keys.zipIdx).zip colors).filter (·.2 = color)
  ((mine.map (·.1)).mergeSort keyLe).map (·.2)

/-- Splits the positions of `colors`, which has as many entries as `keys`. -/
def split (colors keys : List Nat) : Except Error Partition :=
  if keys.length ≠ colors.length then
    .error (.lengthMismatch "keys" keys.length colors.length)
  else
    let palette := palette colors
    let groups := palette.map (positions colors keys)
    .ok {
      groups := groups.map Communicator.mk
      placement := colors.zipIdx.map fun (color, position) =>
        let group := palette.idxOf color
        ⟨group, (groups.getD group []).idxOf position⟩ }

/-- Consecutive blocks of `size` ranks each, `count` of them. -/
def blocks (count size : Nat) : Except Error Partition :=
  let total := count * size
  if total = 0 then .error .emptyCommunicator
  else split ((List.range total).map (· / size)) ((List.range total).map (· % size))

end Partition

/-- Splits a communicator by one color and one key for each local rank; the groups hold members. -/
def Communicator.split (c : Communicator) (colors keys : List Nat) : Except Error Partition :=
  if colors.length ≠ c.size then .error (.lengthMismatch "colors" colors.length c.size)
  else do
    let partition ← Partition.split colors keys
    return { partition with
      groups := partition.groups.map fun group =>
        ⟨group.members.map fun position => c.members.getD position 0⟩ }

end Collectives
