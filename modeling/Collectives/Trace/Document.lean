import Collectives.Json.Value
import Collectives.Schedule

/-!
# Trace documents

A trace as structured data: the content of the JSON form.
-/

namespace Collectives.Trace

structure Record where
  id : Nat
  action : Action
  requires : List OpId
  deriving DecidableEq, Repr

structure RankRecord where
  rank : Nat
  ops : List Record
  deriving DecidableEq, Repr

structure Document where
  schemaVersion : UInt32
  rankCount : Nat
  ranks : List RankRecord
  deriving DecidableEq, Repr

/-- The version of the form that is written. -/
def currentVersion : UInt32 := 1

/-- The operations of a rank, numbered by position. -/
def RankRecord.ofOps (rank : Nat) (ops : List Op) : RankRecord where
  rank
  ops := ops.zipIdx.map fun (op, id) => { id, action := op.action, requires := op.requires }

def Document.ofSchedule (s : Schedule) : Document where
  schemaVersion := currentVersion
  rankCount := s.rankCount
  ranks := s.ranks.zipIdx.map fun (ops, rank) => .ofOps rank ops

open Json (Value)

def actionName : Action → String
  | .send .. => "send"
  | .recv .. => "recv"
  | .calc _ => "calc"

def actionMembers : Action → List (String × Value)
  | .send peer size tag | .recv peer size tag =>
    [("peer", .number peer), ("size", .number size), ("tag", .number tag.toNat)]
  | .calc cost => [("cost", .number cost)]

def opIdValue (id : OpId) : Value :=
  .object [("rank", .number id.rank), ("index", .number id.index)]

/-- Dependencies are written only if there are any. -/
def Record.value (record : Record) : Value :=
  .object (("id", .number record.id) :: ("kind", .text (actionName record.action)) ::
    actionMembers record.action ++
    if record.requires.isEmpty then []
    else [("requires", .array (record.requires.map opIdValue))])

def RankRecord.value (trace : RankRecord) : Value :=
  .object [("rank", .number trace.rank), ("ops", .array (trace.ops.map Record.value))]

def Document.value (doc : Document) : Value :=
  .object [("schema_version", .number doc.schemaVersion.toNat),
    ("num_ranks", .number doc.rankCount), ("ranks", .array (doc.ranks.map RankRecord.value))]

end Collectives.Trace
