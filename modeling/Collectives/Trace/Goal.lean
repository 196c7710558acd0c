import Collectives.Schedule

/-!
# GOAL text

A trace as lines: the number of ranks, then a block for every rank with its operations and after
them its dependencies. The text has no form for a dependency on another rank's operation; those are
left out.
-/

namespace Collectives.Trace

inductive GoalLine where
  | rankCount (count : Nat)
  | blank
  | openRank (rank : Nat)
  | operation (index : Nat) (action : Action)
  | dependency (index dep : Nat)
  | closeRank
  deriving DecidableEq, Repr

namespace GoalLine

def text : GoalLine → String
  | .rankCount count => "num_ranks " ++ count.repr ++ "\n"
  | .blank => "\n"
  | .openRank rank => "rank " ++ rank.repr ++ " \x7b\n"
  | .operation index (.send peer size tag) =>
    "l" ++ index.repr ++ ": send " ++ size.repr ++ "b to " ++ peer.repr ++ " tag " ++
      tag.toNat.repr ++ "\n"
  | .operation index (.recv peer size tag) =>
    "l" ++ index.repr ++ ": recv " ++ size.repr ++ "b from " ++ peer.repr ++ " tag " ++
      tag.toNat.repr ++ "\n"
  | .operation index (.calc cost) => "l" ++ index.repr ++ ": calc " ++ cost.repr ++ "\n"
  | .dependency index dep => "l" ++ index.repr ++ " requires l" ++ dep.repr ++ "\n"
  | .closeRank => "\x7d\n"

/-- The dependencies of an operation of `rank` on operations of the same rank. -/
def dependencies (rank index : Nat) (op : Op) : List GoalLine :=
  (op.requires.filter (·.rank = rank)).map fun dep => dependency index dep.index

def block (rank : Nat) (ops : List Op) : List GoalLine :=
  blank :: openRank rank :: (ops.zipIdx.map fun (op, index) => operation index op.action) ++
    (ops.zipIdx.flatMap fun (op, index) => dependencies rank index op) ++ [closeRank]

def ofSchedule (s : Schedule) : List GoalLine :=
  rankCount s.rankCount :: s.ranks.zipIdx.flatMap fun (ops, rank) => block rank ops

end GoalLine
end Collectives.Trace
