import Collectives.Allreduce
import Collectives.Alltoall
import Collectives.Partition

/-!
# Groups

The same collective side by side in groups of equal size, on one schedule.
-/

namespace Collectives.Groups

/-- How far work on a list of groups came: the results of the groups that got to their end, and the
failure that stopped the next one, if any. -/
structure Outcome (α : Type) where
  results : List α
  failure : Option Failure
  schedule : Schedule

/-- Works on one group after another, up to the first failure; the groups are numbered from
`index`. -/
def run {α : Type} (work : Nat → Communicator → Build α) :
    (index : Nat) → List Communicator → Schedule → Outcome α
  | _, [], s => ⟨[], none, s⟩
  | index, group :: rest, s =>
    match (work index group).runOn s with
    | (.error failure, s) => ⟨[], some failure, s⟩
    | (.ok result, s) =>
      let outcome := run work (index + 1) rest s
      { outcome with results := result :: outcome.results }

def onBlocks {α : Type} (count size : Nat) (work : Nat → Communicator → Build α) :
    Except Error (Outcome α) := do
  let partition ← Partition.blocks count size
  return run work 0 partition.groups (.idle partition.placement.length)

def schedule (count size : Nat) (pattern : Nat → Pattern) : Except Failure Schedule :=
  match onBlocks count size fun index group => Build.run group (pattern index) with
  | .error error => .error (.refused error)
  | .ok { failure := some failure, .. } => .error failure
  | .ok { failure := none, schedule, .. } => .ok schedule

def allreduce (algorithm : Allreduce.Algorithm) (count size : Nat) (r : Reduction) :
    Except Failure Schedule :=
  schedule count size fun _ => Allreduce.pattern algorithm r

/-- One all-to-all in every group; unbalanced groups draw their sizes one after another. -/
def alltoall (algorithm : Alltoall.Algorithm) (count size : Nat) (request : Alltoall.Request)
    (words : Random.Words) : Except Failure Schedule :=
  let drawn := (List.replicate count ()).mapM
    fun _ => Alltoall.drawSizes algorithm request words size
  let sizes := (drawn.run 0).1
  schedule count size fun index => Alltoall.pattern algorithm request (sizes.getD index [])

end Collectives.Groups
