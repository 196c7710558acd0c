import Collectives.Proofs.Barrier
import Collectives.Proofs.ButterflySums
import Collectives.Proofs.RingSums
import Collectives.Proofs.SideBySide

/-!
# Symmetry

No rank is special in a collective around a circle of ranks: the schedule stays the same when all
ranks are turned by the same distance. In recursive doubling it stays the same when the same bits
are flipped in all ranks.
-/

namespace Collectives

/-- The operation at the same position of another rank. -/
def OpId.mapRank (f : Nat → Nat) (id : OpId) : OpId := ⟨f id.rank, id.index⟩

/-- The same operation with other ranks: those of its peer and of what it waits for are renamed. -/
def Op.mapRanks (f : Nat → Nat) (op : Op) : Op :=
  ⟨op.action.mapPeer f, op.requires.map (·.mapRank f)⟩

def Planned.mapPeer (f : Nat → Nat) (planned : Planned) : Planned :=
  { planned with action := planned.action.mapPeer f }

def Pair.mapRanks (f : Nat → Nat) (pair : Pair) : Pair :=
  { pair with source := f pair.source, destination := f pair.destination }

/-- Renaming the ranks by `turn` gives the schedule back: the rank that `rank` becomes has the
operations of `rank`, with all ranks in them renamed. -/
structure Schedule.InvariantUnder (s : Schedule) (turn : Nat → Nat) : Prop where
  turn_lt : ∀ rank < s.rankCount, turn rank < s.rankCount
  opsAt_turn : ∀ rank < s.rankCount, s.opsAt (turn rank) = (s.opsAt rank).map (·.mapRanks turn)

/-- Wherever the pattern is not refused, it has a schedule, and renaming the ranks by `turn` gives
this schedule back. -/
def Pattern.InvariantUnder (pattern : Pattern) (ranks : Nat) (turn : Nat → Nat) : Prop :=
  0 < ranks → ∀ plans, pattern ranks = .ok plans →
    ∃ s, pattern.schedule ranks = .ok s ∧ s.rankCount = ranks ∧ s.InvariantUnder turn

/-- The ranks below `ranks`, each in the place of the rank that it is renamed to. -/
def Communicator.turned (ranks : Nat) (turn : Nat → Nat) : Communicator :=
  ⟨(List.range ranks).map turn⟩

section Turn

variable {ranks rank : Nat} {turn : Nat → Nat}

@[simp] theorem Communicator.size_turned : (turned ranks turn).size = ranks := by
  simp [turned, size]

theorem Communicator.member_turned (h : rank < ranks) :
    (turned ranks turn).member rank = turn rank := by
  simp [turned, member, h]

/-- On an idle schedule, renaming ranks is relocating to the ranks in their new places. -/
theorem Op.relocate_turned {op : Op} (hpeer : ∀ peer, op.action.peer? = some peer → peer < ranks)
    (hrequires : ∀ dep ∈ op.requires, dep.rank < ranks) :
    op.relocate (.turned ranks turn) (.idle 0) = op.mapRanks turn := by
  rw [relocate, mapRanks]
  congr 1
  · exact Action.mapPeer_congr fun peer h => Communicator.member_turned (hpeer peer h)
  · apply List.map_congr_left
    intro dep hdep
    rw [OpId.relocate, OpId.mapRank, Communicator.member_turned (hrequires dep hdep),
      Schedule.opsAt_idle, List.length_nil, Nat.add_zero]

theorem Planned.place_mapPeer {planned : Planned}
    (hpeer : ∀ peer, planned.action.peer? = some peer → peer < ranks)
    (hturn : ∀ rank < ranks, turn rank < ranks) (owner : Nat) :
    (planned.mapPeer turn).place (.world ranks) owner 0 =
      planned.place (.turned ranks turn) owner 0 := by
  have haction : (planned.action.mapPeer turn).mapPeer (Communicator.world ranks).member =
      planned.action.mapPeer (Communicator.turned ranks turn).member := by
    rw [Schedule.mapPeer_world (by
      intro peer h
      rw [Action.peer?_mapPeer] at h
      obtain ⟨before, hbefore, rfl⟩ := Option.map_eq_some_iff.1 h
      exact hturn before (hpeer before hbefore))]
    exact Action.mapPeer_congr fun peer h => (Communicator.member_turned (hpeer peer h)).symm
  rw [place, mapPeer, haction, place]

/-- Coherent plans that are the same up to names make an invariant schedule. -/
theorem Schedule.invariant_onWorld {plans : Nat → RankPlan} {level : Nat → Nat → Nat}
    (hc : RankPlan.Coherent ranks plans level) (hturn : ∀ rank < ranks, turn rank < ranks)
    (hplans : ∀ rank < ranks,
      (plans (turn rank)).flatten = (plans rank).flatten.map (·.mapPeer turn)) :
    (onWorld ranks plans).InvariantUnder turn where
  turn_lt := by simpa using hturn
  opsAt_turn := by
    intro rank hrank
    rw [rankCount_onWorld] at hrank
    have hwithin := within_onWorld hc hrank
    have hrelocated := RankPlan.relocate_opsOn (c := .turned ranks turn) (s := .idle 0)
      (by simpa using hc) (by simpa using hrank)
    rw [Communicator.size_turned, Communicator.member_turned hrank, opsAt_idle, List.length_nil]
      at hrelocated
    calc (onWorld ranks plans).opsAt (turn rank)
        = (plans (turn rank)).opsOn (.world ranks) (turn rank) 0 :=
          opsAt_onWorld plans (hturn rank hrank)
      _ = (plans rank).opsOn (.turned ranks turn) (turn rank) 0 := by
          rw [RankPlan.opsOn, RankPlan.opsOn, hplans rank hrank, List.map_map]
          apply List.map_congr_left
          intro planned hmem
          exact Planned.place_mapPeer (fun peer h => (hc.peers rank hrank planned hmem peer h).1)
            hturn (turn rank)
      _ = ((plans rank).opsOn (.world ranks) rank 0).map (·.mapRanks turn) := by
          rw [← hrelocated]
          apply List.map_congr_left
          intro op hop
          rw [opsAt_onWorld plans hrank] at hwithin
          obtain ⟨hpeer, hrequires⟩ := hwithin op hop
          exact Op.relocate_turned hpeer fun dep hdep => (hrequires dep hdep).trans_lt hrank
      _ = ((onWorld ranks plans).opsAt rank).map (·.mapRanks turn) := by
          rw [opsAt_onWorld plans hrank]

theorem pairOps_mapRanks (cost : Nat) (sendWaits recvWaits : Nat → List Wait) (f : Nat → Nat)
    (first : Nat) (pairs : List Pair) :
    pairOps cost sendWaits recvWaits first (pairs.map (·.mapRanks f)) =
      (pairOps cost sendWaits recvWaits first pairs).map (·.mapPeer f) := by
  induction pairs generalizing first with
  | nil => rfl
  | cons pair pairs ih =>
    have hblock : pairBlock cost sendWaits recvWaits first (pair.mapRanks f) =
        (pairBlock cost sendWaits recvWaits first pair).map (·.mapPeer f) := by
      unfold pairBlock
      split <;> rfl
    rw [List.map_cons, pairOps, ih, hblock, ← List.map_append]
    rfl

/-- So do plans made of pairs that are the same up to names. -/
theorem PairedPlans.invariant {cost : Nat} {sendWaits recvWaits : Nat → List Wait}
    {pairsOf : Nat → List Pair} {plans : Nat → RankPlan}
    (h : PairedPlans ranks cost sendWaits recvWaits pairsOf plans)
    (hturn : ∀ rank < ranks, turn rank < ranks)
    (hpairs : ∀ rank < ranks, pairsOf (turn rank) = (pairsOf rank).map (·.mapRanks turn)) :
    (Schedule.onWorld ranks plans).InvariantUnder turn := by
  apply Schedule.invariant_onWorld h.coherent hturn
  intro rank hrank
  rw [h.flatten, h.flatten, hpairs rank hrank, pairOps_mapRanks]

theorem Pattern.invariantUnder {pattern : Pattern} (hcoherent : pattern.Coherent)
    (h : ∀ plans, pattern ranks = .ok plans → (Schedule.onWorld ranks plans).InvariantUnder turn) :
    pattern.InvariantUnder ranks turn := by
  intro hranks plans hplans
  obtain ⟨level, hc⟩ := hcoherent ranks plans hplans
  exact ⟨_, schedule_eq hranks hplans hc, Schedule.rankCount_onWorld ranks plans, h plans hplans⟩

end Turn

/-- The rank that lies `k` ahead around a circle of `ranks` ranks. -/
def rotate (ranks k rank : Nat) : Nat := (rank + k) % ranks

theorem rotate_lt {ranks rank : Nat} (k : Nat) (h : rank < ranks) : rotate ranks k rank < ranks :=
  Nat.mod_lt _ (Nat.zero_lt_of_lt h)

namespace Pair

/-- Pairs that go the same ways around a circle everywhere do not notice a rotation. -/
theorem shifts_rotate {ranks : Nat} {steps : List (Nat × Tag)}
    (h : ∀ step ∈ steps, step.1 ≤ ranks) (size k rank : Nat) :
    shifts (fun _ _ => size) ranks steps (rotate ranks k rank) =
      (shifts (fun _ _ => size) ranks steps rank).map (·.mapRanks (rotate ranks k)) := by
  rw [shifts, shifts, List.map_map]
  apply List.map_congr_left
  rintro ⟨distance, tag⟩ hstep
  obtain ⟨rest, hrest⟩ := Nat.exists_eq_add_of_le (h _ hstep)
  -- to receive from `distance` behind is to receive from `rest` ahead
  have hback : ∀ x, x + ranks - distance = x + rest := by omega
  have hturned : ∀ way, (rotate ranks k rank + way) % ranks =
      rotate ranks k ((rank + way) % ranks) := by
    intro way
    rw [rotate, rotate, Nat.mod_add_mod, Nat.mod_add_mod, Nat.add_right_comm]
  simp only [Function.comp_apply, mapRanks, hback, hturned]

theorem flips_xor (steps : List (Nat × Nat × Tag)) (k rank : Nat) :
    flips steps (rank ^^^ k) = (flips steps rank).map (·.mapRanks (· ^^^ k)) := by
  rw [flips, flips, List.map_map]
  apply List.map_congr_left
  rintro ⟨bit, size, tag⟩ -
  have hcomm : rank ^^^ k ^^^ 2 ^ bit = rank ^^^ 2 ^ bit ^^^ k := by
    rw [Nat.xor_assoc, Nat.xor_comm k, ← Nat.xor_assoc]
  simp only [Function.comp_apply, mapRanks, hcomm]

end Pair

namespace Dissemination

theorem invariantUnder_rotate (size : Nat) (tag : Tag) (ranks k : Nat) :
    (exchange size tag).InvariantUnder ranks (rotate ranks k) := by
  apply Pattern.invariantUnder (coherent size tag)
  rintro plans ⟨⟩
  refine (paired size tag ranks).invariant (fun rank => rotate_lt k) fun rank _ => ?_
  apply Pair.shifts_rotate
  intro step hstep
  obtain ⟨distance, hdistance, rfl⟩ := List.mem_map.1 hstep
  exact (mem_distancesFrom hdistance).2.le

end Dissemination

namespace Ring

theorem invariantUnder_rotate (r : Reduction) (ranks k : Nat) :
    (allreduce r).InvariantUnder ranks (rotate ranks k) := by
  apply Pattern.invariantUnder (coherent r)
  intro plans hplans
  obtain ⟨secondTag, -, rfl⟩ := exists_secondTag hplans
  refine (chainedPlans r secondTag ranks).paired.invariant (fun rank => rotate_lt k) ?_
  intro rank _
  apply Pair.shifts_rotate
  intro step hstep
  simp only [steps, List.mem_append, List.mem_replicate] at hstep
  rcases hstep with ⟨hranks, rfl⟩ | ⟨hranks, rfl⟩ <;> simp only <;> omega

end Ring

namespace Alltoall

theorem pairs_rotate (size : Nat) (tag : Tag) (ranks k rank : Nat) :
    pairs (fun _ _ => size) tag ranks (rotate ranks k rank) =
      (pairs (fun _ _ => size) tag ranks rank).map (·.mapRanks (rotate ranks k)) := by
  rw [pairs_eq_shifts, pairs_eq_shifts]
  apply Pair.shifts_rotate
  intro step hstep
  simp only [offsets, List.map_map, List.mem_map, List.mem_range] at hstep
  obtain ⟨offset, hoffset, rfl⟩ := hstep
  simp only [Function.comp_apply]
  omega

theorem invariantUnder_rotate_balanced (request : Request) (ranks k : Nat) :
    (balanced request).InvariantUnder ranks (rotate ranks k) := by
  apply Pattern.invariantUnder (coherent_balanced request)
  rintro plans ⟨⟩
  exact (paired_parallel _ request.tag ranks).invariant (fun rank => rotate_lt k)
    fun rank _ => pairs_rotate request.size request.tag ranks k rank

theorem invariantUnder_rotate_windowed (request : Request) (ranks k : Nat) :
    (windowed request).InvariantUnder ranks (rotate ranks k) := by
  apply Pattern.invariantUnder (coherent_windowed request)
  intro plans hplans
  obtain ⟨hwindow, rfl⟩ := plans_windowed hplans
  exact (paired_windowed _ request.tag ranks hwindow).invariant (fun rank => rotate_lt k)
    fun rank _ => pairs_rotate request.size request.tag ranks k rank

end Alltoall

namespace Butterfly

theorem invariantUnder_xor (r : Reduction) {ranks k : Nat} (hk : k < ranks) :
    (allreduce r).InvariantUnder ranks (· ^^^ k) := by
  apply Pattern.invariantUnder (coherent r)
  intro plans hplans
  obtain ⟨bits, secondTag, rfl, -, rfl⟩ := exists_secondTag hplans
  exact (chainedPlans r secondTag bits).paired.invariant
    (fun rank hrank => Nat.xor_lt_two_pow hrank hk) fun rank _ => Pair.flips_xor _ k rank

end Butterfly

namespace Schedule

/-- Turned by any distance, the schedules of a dissemination, a ring, and a balanced or windowed
all-to-all stay the same, whatever their parameters: in the list of `(rank + k) % ranks` stand the
operations of `rank`, with every peer and every rank of a dependency turned likewise. Recursive
doubling stays the same when the bits of `k` are flipped in every rank. -/
theorem no_rank_special (ranks k : Nat) :
    (∀ size tag, (Dissemination.exchange size tag).InvariantUnder ranks fun rank =>
      (rank + k) % ranks) ∧
    (∀ r, (Ring.allreduce r).InvariantUnder ranks fun rank => (rank + k) % ranks) ∧
    (∀ request, (Alltoall.balanced request).InvariantUnder ranks fun rank => (rank + k) % ranks) ∧
    (∀ request, (Alltoall.windowed request).InvariantUnder ranks fun rank => (rank + k) % ranks) ∧
    (k < ranks → ∀ r, (Butterfly.allreduce r).InvariantUnder ranks fun rank => rank ^^^ k) :=
  ⟨fun size tag => Dissemination.invariantUnder_rotate size tag ranks k,
    fun r => Ring.invariantUnder_rotate r ranks k,
    fun request => Alltoall.invariantUnder_rotate_balanced request ranks k,
    fun request => Alltoall.invariantUnder_rotate_windowed request ranks k,
    fun hk r => Butterfly.invariantUnder_xor r hk⟩

/-- On four ranks, with rank 3 in the place of rank 0: a window of two pairs, and recursive
doubling. -/
theorem no_rank_special_four :
    3 < 4 ∧
      (∃ s, (Alltoall.windowed ⟨64, 3, 2⟩).schedule 4 = .ok s ∧
        s.opsAt 3 = (s.opsAt 0).map (·.mapRanks fun rank => (rank + 3) % 4)) ∧
      ∃ s, (Butterfly.allreduce ⟨10, 0, 5⟩).schedule 4 = .ok s ∧
        s.opsAt 3 = (s.opsAt 0).map (·.mapRanks fun rank => rank ^^^ 3) := by
  obtain ⟨-, -, -, hwindowed, hdoubling⟩ := no_rank_special 4 3
  obtain ⟨s, hs, hranks, hinvariant⟩ := hwindowed ⟨64, 3, 2⟩ (by decide) _ rfl
  obtain ⟨t, ht, hranks', hinvariant'⟩ := hdoubling (by decide) ⟨10, 0, 5⟩ (by decide) _ rfl
  exact ⟨by decide, ⟨s, hs, hinvariant.opsAt_turn 0 (by omega)⟩,
    t, ht, hinvariant'.opsAt_turn 0 (by omega)⟩

end Schedule
end Collectives
