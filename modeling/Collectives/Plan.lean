import Collectives.Build

/-!
# Rank plans

A plan says what one rank will do before any of it exists: rounds of operations with local peers,
each with what it waits for. `issue` creates the operations of a plan round by round and then links
them; `place` does so for every rank of a communicator, in rank order.
-/

namespace Collectives

/-- What a planned operation waits for: the operation at a position of the same plan, or one that
exists already. -/
inductive Wait where
  | own (position : Nat)
  | existing (id : OpId)
  deriving DecidableEq, Repr

/-- An operation to be created; its peer is a local rank. -/
structure Planned where
  action : Action
  waits : List Wait := []
  deriving DecidableEq, Repr

/-- Operations that are created together and linked once all of them exist. -/
abbrev Round := List Planned

abbrev RankPlan := List Round

/-- The plans of all ranks of a communicator of the given size, or why there are none. -/
abbrev Pattern := (size : Nat) → Except Error ((rank : Nat) → RankPlan)

def Wait.target (issued : List OpId) : Wait → Except Fault OpId
  | own position => entryAt issued position
  | existing id => .ok id

namespace Build

/-- Creates a round after the operations `issued` of the same plan and links it; the result names
all operations of the plan so far. -/
def issueRound (c : Communicator) (rank : Nat) (issued : List OpId) (round : Round) :
    Build (List OpId) := do
  let ids ← round.mapM fun planned => create c rank planned.action
  let issued := issued ++ ids
  (ids.zip round).forM fun (id, planned) =>
    planned.waits.forM fun wait => do require id (← demand (wait.target issued))
  return issued

/-- Creates and links the operations of a plan and returns their names in order. -/
def issue (c : Communicator) (rank : Nat) (plan : RankPlan) : Build (List OpId) :=
  plan.foldlM (issueRound c rank) []

def place (c : Communicator) (plans : Nat → RankPlan) : Build Unit :=
  (List.range c.size).forM fun rank => do discard (issue c rank (plans rank))

/-- Plans a pattern for the size of `c` and places it there; a refused pattern creates nothing. -/
def run (c : Communicator) (pattern : Pattern) : Build Unit := do
  place c (← check (pattern c.size))

end Build

def Pattern.schedule (pattern : Pattern) (size : Nat) : Except Failure Schedule :=
  if size = 0 then .error (.refused .emptyCommunicator)
  else (Build.run (.world size) pattern).scheduleFrom (.idle size)

end Collectives
