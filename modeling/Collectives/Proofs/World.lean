import Collectives.Proofs.Levels

/-!
# Patterns on a world

On the ranks of an idle schedule local and global ranks are the same, and so are the positions in a
plan and in the list of operations. So the schedule of a pattern consists of its plans.
-/

namespace Collectives

namespace Communicator

variable {ranks rank : Nat}

@[simp] theorem size_world (ranks : Nat) : (world ranks).size = ranks := by
  simp [world, size]

@[simp] theorem member_world (h : rank < ranks) : (world ranks).member rank = rank := by
  simp [world, member, h]

theorem nodup_world (ranks : Nat) : (world ranks).members.Nodup := List.nodup_range

theorem inside_world (ranks : Nat) : (world ranks).Inside (.idle ranks) := by
  intro owner howner
  simpa [world, Schedule.idle, Schedule.rankCount] using howner

end Communicator

namespace Schedule

/-- The plans of all ranks, each on its own rank. -/
def onWorld (ranks : Nat) (plans : Nat → RankPlan) : Schedule :=
  (idle ranks).placed (.world ranks) plans

variable {ranks rank : Nat} {plans : Nat → RankPlan} {level : Nat → Nat → Nat}

theorem opsAt_onWorld (plans : Nat → RankPlan) (h : rank < ranks) :
    (onWorld ranks plans).opsAt rank = (plans rank).opsOn (.world ranks) rank 0 := by
  have hsize : rank < (Communicator.world ranks).size := by simpa using h
  have hplaced := opsAt_placed (Communicator.nodup_world ranks) (Communicator.inside_world ranks)
    plans hsize
  rw [Communicator.member_world h, opsAt_idle] at hplaced
  exact hplaced

theorem opsAt_onWorld_of_le (plans : Nat → RankPlan) (h : ranks ≤ rank) :
    (onWorld ranks plans).opsAt rank = [] := by
  have hout : rank ∉ (Communicator.world ranks).members := by simpa [Communicator.world] using h
  rw [onWorld, opsAt_placed_of_notMem hout, opsAt_idle]

theorem op?_onWorld (plans : Nat → RankPlan) (h : rank < ranks) (position : Nat) :
    (onWorld ranks plans).op? ⟨rank, position⟩ =
      (plans rank).flatten[position]?.map (·.place (.world ranks) rank 0) := by
  rw [op?_eq, opsAt_onWorld plans h, RankPlan.opsOn, List.getElem?_map]

/-- Every operation comes from a plan. -/
theorem exists_planned {id : OpId} {op : Op} (hop : (onWorld ranks plans).op? id = some op) :
    id.rank < ranks ∧ ∃ planned, (plans id.rank).flatten[id.index]? = some planned ∧
      op = planned.place (.world ranks) id.rank 0 := by
  have hrank : id.rank < ranks := by
    by_contra hout
    rw [op?_eq, opsAt_onWorld_of_le plans (Nat.le_of_not_lt hout)] at hop
    cases hop
  rw [show id = ⟨id.rank, id.index⟩ from rfl, op?_onWorld plans hrank] at hop
  obtain ⟨planned, hget, rfl⟩ := Option.map_eq_some_iff.1 hop
  exact ⟨hrank, planned, hget, rfl⟩

theorem mapPeer_world {action : Action}
    (h : ∀ peer, action.peer? = some peer → peer < ranks) :
    action.mapPeer (Communicator.world ranks).member = action := by
  rcases action with ⟨peer, size, tag⟩ | ⟨peer, size, tag⟩ | cost
  · rw [Action.mapPeer, Communicator.member_world (h peer rfl)]
  · rw [Action.mapPeer, Communicator.member_world (h peer rfl)]
  · rfl

/-- A planned operation keeps its action. -/
theorem op?_of_planned (hrank : rank < ranks) {position : Nat} {planned : Planned}
    (hget : (plans rank).flatten[position]? = some planned)
    (hpeer : ∀ peer, planned.action.peer? = some peer → peer < ranks) :
    ∃ requires, (onWorld ranks plans).op? ⟨rank, position⟩ = some ⟨planned.action, requires⟩ := by
  refine ⟨(planned.place (.world ranks) rank 0).requires, ?_⟩
  have haction := planned.action_place (.world ranks) rank 0
  rw [mapPeer_world hpeer] at haction
  rw [op?_onWorld plans hrank, hget, Option.map_some, ← haction]

/-- What a planned operation requires are the operations at the positions that it waits for. -/
theorem mem_requiresOf_onWorld (hrank : rank < ranks) {position : Nat} {planned : Planned}
    (hget : (plans rank).flatten[position]? = some planned)
    (hwaits : ∀ wait ∈ planned.waits, ∃ earlier, wait = .own earlier) {dep : OpId} :
    dep ∈ (onWorld ranks plans).requiresOf ⟨rank, position⟩ ↔
      ∃ earlier, .own earlier ∈ planned.waits ∧ dep = ⟨rank, earlier⟩ := by
  have hop : (onWorld ranks plans).op? ⟨rank, position⟩ =
      some (planned.place (.world ranks) rank 0) := by
    rw [op?_onWorld plans hrank, hget]
    rfl
  rw [requiresOf_eq hop, Planned.mem_requires_place]
  constructor
  · rintro ⟨wait, hwait, rfl⟩
    obtain ⟨earlier, rfl⟩ := hwaits wait hwait
    exact ⟨earlier, hwait, by rw [Wait.resolve, Nat.zero_add]⟩
  · rintro ⟨earlier, hwait, rfl⟩
    exact ⟨_, hwait, by rw [Wait.resolve, Nat.zero_add]⟩

@[simp] theorem rankCount_idle (count : Nat) : (idle count).rankCount = count := by
  simp [idle, rankCount]

@[simp] theorem rankCount_onWorld (ranks : Nat) (plans : Nat → RankPlan) :
    (onWorld ranks plans).rankCount = ranks := by
  rw [onWorld, rankCount_placed, rankCount_idle]

theorem leveled_onWorld (hc : RankPlan.Coherent ranks plans level) :
    (onWorld ranks plans).Leveled
      fun id => level ((Communicator.world ranks).members.idxOf id.rank) id.index := by
  have hleveled := (leveled_idle ranks).placed (c := .world ranks) (by simpa using hc)
    (Communicator.nodup_world ranks) (Communicator.inside_world ranks)
  have hlevel : (idle ranks).levelAfter (.world ranks) (fun _ => 0) level =
      fun id => level ((Communicator.world ranks).members.idxOf id.rank) id.index := by
    funext id
    simp [levelAfter]
  rwa [hlevel] at hleveled

end Schedule

/-- The operation that a planned one becomes, if it does not wait for anything twice. -/
theorem Planned.place_world {ranks rank : Nat} {planned : Planned} {requires : List OpId}
    (hpeer : ∀ peer, planned.action.peer? = some peer → peer < ranks)
    (hwaits : planned.waits.map (·.resolve rank 0) = requires) (hnodup : requires.Nodup) :
    planned.place (.world ranks) rank 0 = ⟨planned.action, requires⟩ := by
  subst hwaits
  rw [place_eq hnodup, Schedule.mapPeer_world hpeer]

/-- The schedule of a pattern that is not refused. -/
theorem Pattern.schedule_eq {pattern : Pattern} {ranks : Nat} {plans : Nat → RankPlan}
    {level : Nat → Nat → Nat} (hranks : 0 < ranks) (hplans : pattern ranks = .ok plans)
    (hc : RankPlan.Coherent ranks plans level) :
    pattern.schedule ranks = .ok (.onWorld ranks plans) := by
  have hsize : pattern (Communicator.world ranks).size = .ok plans := by
    rw [Communicator.size_world, hplans]
  have hrun := Build.runOn_run (Communicator.inside_world ranks) (by
    intro plans' hplans' rank hrank
    obtain rfl := Except.ok.inj (hsize.symm.trans hplans')
    rw [Communicator.size_world] at hrank ⊢
    exact hc.fits rank hrank _)
  rw [hsize] at hrun
  rw [schedule, if_neg (Nat.ne_of_gt hranks), Build.scheduleFrom, hrun]
  rfl

theorem Pattern.schedule_eq_error {pattern : Pattern} {ranks : Nat} {error : Error}
    (hranks : 0 < ranks) (h : pattern ranks = .error error) :
    pattern.schedule ranks = .error (.refused error) := by
  rw [schedule, if_neg hranks.ne', Build.scheduleFrom]
  simp [Build.run, Build.runOn_bind, h]

/-- Every schedule of a pattern consists of its plans. -/
theorem Pattern.exists_plans {pattern : Pattern} {ranks : Nat} {s : Schedule}
    (hc : ∀ plans, pattern ranks = .ok plans → ∃ level, RankPlan.Coherent ranks plans level)
    (h : pattern.schedule ranks = .ok s) :
    0 < ranks ∧ ∃ plans, pattern ranks = .ok plans ∧ s = .onWorld ranks plans := by
  by_cases hranks : ranks = 0
  · rw [schedule, if_pos hranks] at h
    cases h
  · have hpos := Nat.pos_of_ne_zero hranks
    cases hplans : pattern ranks with
    | ok plans =>
      obtain ⟨level, hcoherent⟩ := hc plans hplans
      rw [schedule_eq hpos hplans hcoherent] at h
      exact ⟨hpos, plans, rfl, (Except.ok.inj h).symm⟩
    | error error =>
      rw [schedule_eq_error hpos hplans] at h
      cases h

end Collectives
