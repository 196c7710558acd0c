import Collectives.Error

/-!
# Schedules

A schedule holds, for every rank, the operations of that rank in the order of their creation.
Operations are only ever appended, so a name once given stays valid, and `require` adds a
dependency only between operations that exist.
-/

namespace Collectives

structure Schedule where
  ranks : List (List Op) := []
  deriving DecidableEq, Repr

namespace Schedule

/-- A schedule in which none of its `count` ranks does anything yet. -/
def idle (count : Nat) : Schedule := ⟨List.replicate count []⟩

def rankCount (s : Schedule) : Nat := s.ranks.length

def opsOf (s : Schedule) (rank : Nat) : Except Fault (List Op) := entryAt s.ranks rank

def op? (s : Schedule) (id : OpId) : Option Op := do (← s.ranks[id.rank]?)[id.index]?

def opCount (s : Schedule) : Nat := s.ranks.flatten.length

def edgeCount (s : Schedule) : Nat := (s.ranks.flatten.flatMap Op.requires).length

/-- Appends an operation to the list of `rank` and names it. -/
def append (s : Schedule) (rank : Nat) (action : Action) : Except Fault (OpId × Schedule) := do
  let ops ← s.opsOf rank
  return (⟨rank, ops.length⟩, ⟨s.ranks.set rank (ops ++ [⟨action, []⟩])⟩)

/-- Makes `id` wait for `dep`. Both have to exist; of two that are missing, `dep` is reported. -/
def require (s : Schedule) (id dep : OpId) : Except Error Schedule :=
  if (s.op? dep).isNone then .error (.unknownOp dep)
  else if (s.op? id).isNone then .error (.unknownOp id)
  else .ok ⟨s.ranks.modify id.rank (·.modify id.index (·.waitFor dep))⟩

theorem append_of_getElem? {s : Schedule} {rank : Nat} {ops : List Op}
    (h : s.ranks[rank]? = some ops) (action : Action) :
    s.append rank action =
      .ok (⟨rank, ops.length⟩, ⟨s.ranks.set rank (ops ++ [⟨action, []⟩])⟩) := by
  simp [append, opsOf, entryAt, h, bind, Except.bind, pure, Except.pure]

theorem require_of_op? {s : Schedule} {id dep : OpId} (hid : (s.op? id).isSome = true)
    (hdep : (s.op? dep).isSome = true) :
    s.require id dep = .ok ⟨s.ranks.modify id.rank (·.modify id.index (·.waitFor dep))⟩ := by
  rw [Option.isSome_iff_ne_none] at hid hdep
  simp [require, hid, hdep]

end Schedule
end Collectives
