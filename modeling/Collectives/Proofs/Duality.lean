import Collectives.Proofs.TreeLoops
import Collectives.Proofs.TreeShape
import Mathlib.Data.List.Forall2

/-!
# The two directions of a tree

A broadcast is the reduction of the same tree with time reversed: every operation becomes the other
end of its message, and what waited is waited for.
-/

namespace Collectives

/-- One action sends what the other receives: same peer, same size, same tag. -/
inductive Action.Opposite : Action → Action → Prop where
  | sent (peer size : Nat) (tag : Tag) : Opposite (.send peer size tag) (.recv peer size tag)
  | received (peer size : Nat) (tag : Tag) : Opposite (.recv peer size tag) (.send peer size tag)

theorem Action.Opposite.symm {action other : Action} (h : action.Opposite other) :
    other.Opposite action := by
  cases h with
  | sent peer size tag => exact .received peer size tag
  | received peer size tag => exact .sent peer size tag

/-- The schedules are made of the same operations, sends and receives exchanged, and an edge of one
is an edge of the other the other way around. -/
structure Schedule.Reverses (s t : Schedule) : Prop where
  rankCount : s.rankCount = t.rankCount
  opCount (rank : Nat) : (s.opsAt rank).length = (t.opsAt rank).length
  opposite (id : OpId) (op back : Op) (hop : s.op? id = some op) (hback : t.op? id = some back) :
    op.action.Opposite back.action
  edges (id dep : OpId) : dep ∈ s.requiresOf id ↔ id ∈ t.requiresOf dep

namespace Binomial

variable {size : Nat} {tag : Tag} {ranks rank : Nat}

/-- The operations of one rank for its parent and for one of its children. -/
def Linked (ranks : Nat) (up down : OpId) : Prop :=
  up.rank < ranks ∧ up.rank ≠ 0 ∧ up.index = 0 ∧
    down ∈ Schedule.names up.rank 1 (children up.rank ranks).length

theorem mem_requiresOf_reduce {up down : OpId} :
    down ∈ (built size tag .reduce ranks).requiresOf up ↔ Linked ranks up down := by
  constructor
  · intro h
    cases hop : (built size tag .reduce ranks).op? up with
    | none => simp [Schedule.requiresOf, hop] at h
    | some op =>
      rw [Schedule.requiresOf_eq hop] at h
      obtain ⟨hrank, ⟨hpos, hup⟩ | ⟨child, -, rfl⟩⟩ := cases_op_reduce hop
      · rw [hup, op?_send_reduce hrank hpos] at hop
        cases hop
        rw [recvsOf_reduce hrank hpos] at h
        exact ⟨hrank, hpos, congrArg OpId.index hup, h⟩
      · cases h
  · obtain ⟨rank, index⟩ := up
    rintro ⟨hrank, hpos, rfl, h⟩
    rw [Schedule.requiresOf_eq (op?_send_reduce hrank hpos), recvsOf_reduce hrank hpos]
    exact h

theorem sendsOf_broadcast (hrank : rank < ranks) (hpos : rank ≠ 0) :
    (built size tag .broadcast ranks).sendsOf rank =
      Schedule.names rank 1 (children rank ranks).length := by
  rw [Schedule.sendsOf, opsAt_broadcast_of_pos hrank hpos, namesWhere_cons_of_neg (by rfl),
    namesWhere_of_all (by simp [Action.isSend]), List.length_map]

theorem mem_requiresOf_broadcast {up down : OpId} :
    up ∈ (built size tag .broadcast ranks).requiresOf down ↔ Linked ranks up down := by
  constructor
  · intro h
    cases hop : (built size tag .broadcast ranks).op? down with
    | none => simp [Schedule.requiresOf, hop] at h
    | some op =>
      rw [Schedule.requiresOf_eq hop] at h
      obtain ⟨hrank, ⟨hpos, hdown⟩ | ⟨child, -, rfl⟩⟩ := cases_op_broadcast hop
      · rw [hdown, op?_recv_broadcast hrank hpos] at hop
        cases hop
        cases h
      · by_cases hpos : down.rank = 0
        · rw [if_pos hpos] at h
          cases h
        · rw [if_neg hpos, List.mem_singleton] at h
          subst h
          refine ⟨hrank, hpos, rfl, ?_⟩
          rw [← @sendsOf_broadcast size tag _ _ hrank hpos]
          exact Schedule.mem_sendsOf.2 ⟨rfl, _, hop, rfl⟩
  · obtain ⟨rank, index⟩ := up
    rintro ⟨hrank, hpos, rfl, h⟩
    rw [← @sendsOf_broadcast size tag _ _ hrank hpos] at h
    rw [requiresOf_send_broadcast hpos h]
    exact List.mem_singleton.2 rfl

/-- Operation by operation, a rank receives in one direction what it sends in the other. -/
theorem opsAt_opposite (size : Nat) (tag : Tag) (ranks rank : Nat) :
    List.Forall₂ (fun op back => op.action.Opposite back.action)
      ((built size tag .reduce ranks).opsAt rank)
      ((built size tag .broadcast ranks).opsAt rank) := by
  by_cases hrank : rank < ranks
  · rw [opsAt_reduce hrank, opsAt_broadcast hrank]
    refine List.rel_append ?up ?down
    case up =>
      rw [List.forall₂_map_left_iff, List.forall₂_map_right_iff, List.forall₂_same]
      exact fun parent _ => .sent parent size tag
    case down =>
      rw [List.forall₂_map_left_iff, List.forall₂_map_right_iff, List.forall₂_same]
      exact fun child _ => .received child size tag
  · rw [built, built, Schedule.opsAt_onWorld_of_le _ (Nat.le_of_not_lt hrank),
      Schedule.opsAt_onWorld_of_le _ (Nat.le_of_not_lt hrank)]
    exact .nil

theorem reverses (size : Nat) (tag : Tag) (ranks : Nat) :
    (built size tag .reduce ranks).Reverses (built size tag .broadcast ranks) where
  rankCount := by
    rw [built, built, Schedule.rankCount_onWorld, Schedule.rankCount_onWorld]
  opCount rank := (opsAt_opposite size tag ranks rank).length_eq
  opposite id op back hop hback := by
    have hopposite := opsAt_opposite size tag ranks id.rank
    rw [Schedule.op?_eq] at hop hback
    obtain ⟨hlt, rfl⟩ := List.getElem?_eq_some_iff.1 hop
    obtain ⟨hlt', rfl⟩ := List.getElem?_eq_some_iff.1 hback
    exact hopposite.get hlt hlt'
  edges id dep := by rw [mem_requiresOf_reduce, mem_requiresOf_broadcast]

theorem treeLoop_eq (size : Nat) (tag : Tag) (direction : Direction) (ranks : Nat) :
    (treeLoop (.world ranks) size tag direction).scheduleFrom (.idle ranks) =
      .ok (built size tag direction ranks) := by
  rw [Build.scheduleFrom, runOn_treeLoop (Communicator.inside_world ranks), Pattern.outcome,
    Communicator.size_world]
  rfl

/-- A broadcast is a reduction in reverse, also as they come out of the loop over the steps. There
is neither without ranks. -/
theorem broadcast_reverses_reduce (size : Nat) (tag : Tag) (ranks : Nat) :
    (ranks = 0 ∧ ∀ direction : Direction,
      (tree size tag direction).schedule ranks = .error (.refused .emptyCommunicator)) ∨
    ∃ made : Direction → Schedule,
      (∀ direction, (tree size tag direction).schedule ranks = .ok (made direction) ∧
        (treeLoop (.world ranks) size tag direction).scheduleFrom (.idle ranks) =
          .ok (made direction)) ∧
      (made .reduce).Reverses (made .broadcast) := by
  rcases Nat.eq_zero_or_pos ranks with rfl | hranks
  · exact Or.inl ⟨rfl, fun _ => rfl⟩
  · refine Or.inr ⟨fun direction => built size tag direction ranks, fun direction => ⟨?_, ?_⟩,
      reverses size tag ranks⟩
    · exact schedule_eq size tag direction hranks
    · exact treeLoop_eq size tag direction ranks

end Binomial
end Collectives
