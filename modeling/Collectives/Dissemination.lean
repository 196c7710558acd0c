import Collectives.Plan

/-!
# Dissemination

At the distances 1, 2, 4, ... below the number of ranks, each rank sends that far ahead and receives
from as far behind, and each send waits for the receive before it.
-/

namespace Collectives.Dissemination

/-- The powers of two from `2 ^ step` on that are below `ranks`. -/
def distancesFrom (step ranks : Nat) : List Nat :=
  if 1 <<< step < ranks then 1 <<< step :: distancesFrom (step + 1) ranks else []
termination_by ranks - 1 <<< step
decreasing_by
  have := Nat.two_pow_pos step
  simp only [Nat.one_shiftLeft, Nat.pow_succ] at *
  omega

def partners (rank ranks : Nat) : List (Nat × Nat) :=
  (distancesFrom 0 ranks).map fun distance =>
    ((rank + distance) % ranks, (rank + ranks - distance) % ranks)

/-- The receive of step `i` has the position `2 * i + 1`, and the send of the next step waits for
it. -/
def plan (size : Nat) (tag : Tag) (ranks rank : Nat) : RankPlan :=
  (partners rank ranks).zipIdx.map fun ((ahead, behind), step) =>
    [⟨.send ahead size tag, if step = 0 then [] else [.own (2 * step - 1)]⟩,
     ⟨.recv behind size tag, []⟩]

def exchange (size : Nat) (tag : Tag) : Pattern := fun ranks => .ok (plan size tag ranks)

end Collectives.Dissemination
