import Collectives.Binomial
import Collectives.Dissemination
import Collectives.Family
import Collectives.Groups
import Collectives.Random.ChaCha

/-!
# Descriptions of collectives

A `Spec` describes one collective by names and numbers; `Spec.build` makes the schedule. A family
reads only the fields that it uses.
-/

namespace Collectives

structure Spec where
  collective : String
  algorithm : Option String := none
  /-- The ranks of a communicator: of each group, if there are several. -/
  commSize : Nat
  datasize : Nat
  tag : Tag := 0
  direction : Option String := none
  windowSize : Nat := 1
  groupCount : Nat := 1
  computeTime : Nat := 0
  /-- Where the sizes of an unbalanced all-to-all are drawn from. -/
  seed : Option Nat := none
  deriving DecidableEq, Repr

namespace Spec

def allreduceAlgorithm (spec : Spec) : Except Error Allreduce.Algorithm :=
  match spec.algorithm with
  | some name => Allreduce.Algorithm.parse name
  | none => .ok .bySize

def alltoallAlgorithm (spec : Spec) : Except Error Alltoall.Algorithm :=
  match spec.algorithm with
  | some name => Alltoall.Algorithm.parse name
  | none => .ok .balanced

def treeDirection (spec : Spec) : Except Error Binomial.Direction :=
  match spec.direction with
  | some name => Binomial.Direction.parse name
  | none => .ok .reduce

def reduction (spec : Spec) : Reduction :=
  { size := spec.datasize, tag := spec.tag, cost := spec.computeTime }

def request (spec : Spec) : Alltoall.Request :=
  { size := spec.datasize, tag := spec.tag, window := spec.windowSize }

def words (spec : Spec) (entropy : Random.Words) : Random.Words :=
  match spec.seed with
  | some seed => Random.ChaCha.seeded (UInt64.ofNat seed)
  | none => entropy

/-- Hands a parsed name on; a name that is not known is a refusal. -/
def named {α : Type} (name : Except Error α) (next : α → Except Failure Schedule) :
    Except Failure Schedule :=
  match name with
  | .ok a => next a
  | .error error => .error (.refused error)

def build (spec : Spec) (entropy : Random.Words) : Except Failure Schedule :=
  named (Family.parse spec.collective) fun family =>
    if spec.commSize = 0 ∨ (family.isGrouped ∧ spec.groupCount = 0) then
      .error (.refused .emptyCommunicator)
    else match family with
    | .binomialTree =>
      named spec.treeDirection fun direction =>
        (Binomial.tree spec.datasize spec.tag direction).schedule spec.commSize
    | .dissemination => (Dissemination.exchange spec.datasize spec.tag).schedule spec.commSize
    | .allreduce =>
      named spec.allreduceAlgorithm fun algorithm =>
        (Allreduce.pattern algorithm spec.reduction).schedule spec.commSize
    | .alltoall =>
      named spec.alltoallAlgorithm fun algorithm =>
        let drawn := Alltoall.drawSizes algorithm spec.request (spec.words entropy) spec.commSize
        (Alltoall.pattern algorithm spec.request (drawn.run 0).1).schedule spec.commSize
    | .multiAllreduce =>
      named spec.allreduceAlgorithm fun algorithm =>
        Groups.allreduce algorithm spec.groupCount spec.commSize spec.reduction
    | .multiAlltoall =>
      named spec.alltoallAlgorithm fun algorithm =>
        Groups.alltoall algorithm spec.groupCount spec.commSize spec.request (spec.words entropy)

end Spec
end Collectives
