import Collectives.Butterfly

/-!
# Ring allreduce

The ranks form a ring. In the first phase each rank sends a chunk to its successor and receives one
from its predecessor, `ranks - 1` times; in the second the two change places.
-/

namespace Collectives.Ring

def predecessor (rank ranks : Nat) : Nat := (rank + ranks - 1) % ranks

def successor (rank ranks : Nat) : Nat := (rank + 1) % ranks

/-- Predecessor and successor; an empty ring has neither. -/
def neighbours (rank ranks : Nat) : Except Fault (Nat × Nat) :=
  if ranks = 0 then .error .remainderByZero
  else .ok (predecessor rank ranks, successor rank ranks)

/-- The bytes of one chunk: the least number with `ranks * chunk ≥ size`. -/
def chunk (size ranks : Nat) : Nat :=
  if ranks ≤ 1 then size else (size + ranks - 1) / ranks

def rounds (source destination size ranks : Nat) (tag : Tag) : List Pair :=
  .replicate (ranks - 1)
    { source, recvSize := chunk size ranks, destination, sendSize := chunk size ranks, tag }

def plan (r : Reduction) (secondTag : Tag) (ranks rank : Nat) : RankPlan :=
  let before := predecessor rank ranks
  let behind := successor rank ranks
  .chained r.cost 0 none
    (rounds before behind r.size ranks r.tag ++ rounds behind before r.size ranks secondTag)

def allreduce (r : Reduction) : Pattern := fun ranks => do
  let secondTag ← r.secondTag
  return plan r secondTag ranks

end Collectives.Ring
