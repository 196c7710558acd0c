import Collectives.Proofs.Partners
import Collectives.Proofs.World

/-!
# Schedules made of pairs

When the plans of all ranks are made of pairs that mirror each other, their schedule is known
operation by operation: what each one is, what directly has to come before it, and which send a
receive is matched with.
-/

namespace Collectives

/-- Plans of the ranks below `ranks` that are made of mirrored pairs, and in which a pair waits for
pairs before it only. -/
structure PairedPlans (ranks cost : Nat) (sendWaits recvWaits : Nat → List Wait)
    (pairsOf : Nat → List Pair) (plans : Nat → RankPlan) : Prop where
  flatten : ∀ rank, (plans rank).flatten = pairOps cost sendWaits recvWaits 0 (pairsOf rank)
  sends_back : ∀ k, ∀ wait ∈ sendWaits k, ∃ earlier < stride cost * k, wait = .own earlier
  recvs_back : ∀ k, ∀ wait ∈ recvWaits k, ∃ earlier < stride cost * k, wait = .own earlier
  mirrored : Pair.Mirrored ranks pairsOf

namespace PairedPlans

variable {ranks cost : Nat} {sendWaits recvWaits : Nat → List Wait} {pairsOf : Nat → List Pair}
  {plans : Nat → RankPlan} {rank round : Nat} {pair : Pair}

theorem coherent (h : PairedPlans ranks cost sendWaits recvWaits pairsOf plans) :
    RankPlan.Coherent ranks plans fun _ => pairLevel cost :=
  RankPlan.coherent_of_pairs h.flatten h.sends_back h.recvs_back h.mirrored

theorem leveled (h : PairedPlans ranks cost sendWaits recvWaits pairsOf plans) :
    (Schedule.onWorld ranks plans).Leveled fun id => pairLevel cost id.index :=
  Schedule.leveled_onWorld h.coherent

theorem planned_send (h : PairedPlans ranks cost sendWaits recvWaits pairsOf plans)
    (hpair : (pairsOf rank)[round]? = some pair) :
    (plans rank).flatten[stride cost * round]? =
      some ⟨.send pair.destination pair.sendSize pair.tag, sendWaits round⟩ := by
  rw [h.flatten, getElem?_pairOps]
  exact .send hpair

theorem planned_recv (h : PairedPlans ranks cost sendWaits recvWaits pairsOf plans)
    (hpair : (pairsOf rank)[round]? = some pair) :
    (plans rank).flatten[stride cost * round + 1]? =
      some ⟨.recv pair.source pair.recvSize pair.tag, recvWaits round⟩ := by
  rw [h.flatten, getElem?_pairOps]
  exact .recv hpair

theorem planned_calc (h : PairedPlans ranks cost sendWaits recvWaits pairsOf plans)
    (hpair : (pairsOf rank)[round]? = some pair) (hcost : cost ≠ 0) :
    (plans rank).flatten[3 * round + 2]? = some ⟨.calc cost, [.own (3 * round + 1)]⟩ := by
  rw [h.flatten, getElem?_pairOps]
  exact .compute hpair hcost

theorem op?_send (h : PairedPlans ranks cost sendWaits recvWaits pairsOf plans)
    (hrank : rank < ranks) (hpair : (pairsOf rank)[round]? = some pair) :
    ∃ requires, (Schedule.onWorld ranks plans).op? ⟨rank, stride cost * round⟩ =
      some ⟨.send pair.destination pair.sendSize pair.tag, requires⟩ := by
  apply Schedule.op?_of_planned hrank (h.planned_send hpair)
  intro peer hpeer
  cases hpeer
  exact (h.mirrored.ends rank hrank pair (List.mem_of_getElem? hpair)).2.1

theorem op?_recv (h : PairedPlans ranks cost sendWaits recvWaits pairsOf plans)
    (hrank : rank < ranks) (hpair : (pairsOf rank)[round]? = some pair) :
    ∃ requires, (Schedule.onWorld ranks plans).op? ⟨rank, stride cost * round + 1⟩ =
      some ⟨.recv pair.source pair.recvSize pair.tag, requires⟩ := by
  apply Schedule.op?_of_planned hrank (h.planned_recv hpair)
  intro peer hpeer
  cases hpeer
  exact (h.mirrored.ends rank hrank pair (List.mem_of_getElem? hpair)).1.1

/-- Every operation is a half of a pair or a computation. -/
theorem cases_op (h : PairedPlans ranks cost sendWaits recvWaits pairsOf plans) {id : OpId}
    {op : Op} (hop : (Schedule.onWorld ranks plans).op? id = some op) :
    id.rank < ranks ∧
      ((∃ round pair, (pairsOf id.rank)[round]? = some pair ∧ id.index = stride cost * round ∧
          op.action = .send pair.destination pair.sendSize pair.tag) ∨
        (∃ round pair, (pairsOf id.rank)[round]? = some pair ∧ id.index = stride cost * round + 1 ∧
          op.action = .recv pair.source pair.recvSize pair.tag) ∨
        ∃ round pair, (pairsOf id.rank)[round]? = some pair ∧ cost ≠ 0 ∧
          id.index = 3 * round + 2 ∧ op.action = .calc cost) := by
  obtain ⟨hrank, planned, hget, rfl⟩ := Schedule.exists_planned hop
  refine ⟨hrank, ?_⟩
  rw [h.flatten, getElem?_pairOps] at hget
  rw [Planned.action_place]
  generalize hindex : id.index = index at hget
  cases hget with
  | @send round pair hpair =>
    have hend := (h.mirrored.ends id.rank hrank pair (List.mem_of_getElem? hpair)).2.1
    refine Or.inl ⟨round, pair, hpair, rfl, ?_⟩
    rw [Action.mapPeer, Communicator.member_world hend]
  | @recv round pair hpair =>
    have hend := (h.mirrored.ends id.rank hrank pair (List.mem_of_getElem? hpair)).1.1
    refine Or.inr (Or.inl ⟨round, pair, hpair, rfl, ?_⟩)
    rw [Action.mapPeer, Communicator.member_world hend]
  | compute hpair hcost => exact Or.inr (Or.inr ⟨_, _, hpair, hcost, rfl, rfl⟩)

/-- The halves of a round are matched with each other: the levels of their rounds are the same. -/
theorem matched (h : PairedPlans ranks cost sendWaits recvWaits pairsOf plans)
    (hrank : rank < ranks) (hpair : (pairsOf rank)[round]? = some pair) :
    (Schedule.onWorld ranks plans).Matched ⟨pair.source, stride cost * round⟩
      ⟨rank, stride cost * round + 1⟩ := by
  obtain ⟨requires, hrecv⟩ := h.op?_recv hrank hpair
  obtain ⟨sender, hmatched⟩ := h.leveled.agrees.exists_sender hrecv
  obtain ⟨size, size', tag, requires₁, requires₁', hsend, -⟩ := hmatched.ops
  have hlevel := h.leveled.agrees.of_matched hmatched
  have hsource := (hmatched.place hrecv).1
  obtain ⟨-, ⟨k, other, hk, hindex, -⟩ | ⟨k, other, hk, hindex, haction⟩ |
    ⟨-, -, -, -, -, haction⟩⟩ := h.cases_op hsend
  · have hfirst : pairLevel cost (stride cost * k) = 2 * k := pairLevel_mul_add k (stride_pos cost)
    have hsecond : pairLevel cost (stride cost * round + 1) = 2 * round :=
      pairLevel_mul_add round (two_le_stride cost)
    simp only [hindex, hfirst, hsecond] at hlevel
    obtain rfl : k = round := by omega
    have hsender : sender = ⟨pair.source, stride cost * k⟩ := by
      rw [hsource, ← hindex]
    rwa [hsender] at hmatched
  · cases haction
  · cases haction

theorem mem_requiresOf_send (h : PairedPlans ranks cost sendWaits recvWaits pairsOf plans)
    (hrank : rank < ranks) (hpair : (pairsOf rank)[round]? = some pair) {dep : OpId} :
    dep ∈ (Schedule.onWorld ranks plans).requiresOf ⟨rank, stride cost * round⟩ ↔
      ∃ earlier, .own earlier ∈ sendWaits round ∧ dep = ⟨rank, earlier⟩ :=
  Schedule.mem_requiresOf_onWorld hrank (h.planned_send hpair)
    fun wait hwait => (h.sends_back round wait hwait).imp fun _ hearlier => hearlier.2

theorem mem_requiresOf_recv (h : PairedPlans ranks cost sendWaits recvWaits pairsOf plans)
    (hrank : rank < ranks) (hpair : (pairsOf rank)[round]? = some pair) {dep : OpId} :
    dep ∈ (Schedule.onWorld ranks plans).requiresOf ⟨rank, stride cost * round + 1⟩ ↔
      ∃ earlier, .own earlier ∈ recvWaits round ∧ dep = ⟨rank, earlier⟩ :=
  Schedule.mem_requiresOf_onWorld hrank (h.planned_recv hpair)
    fun wait hwait => (h.recvs_back round wait hwait).imp fun _ hearlier => hearlier.2

theorem mem_requiresOf_calc (h : PairedPlans ranks cost sendWaits recvWaits pairsOf plans)
    (hrank : rank < ranks) (hpair : (pairsOf rank)[round]? = some pair) (hcost : cost ≠ 0)
    {dep : OpId} :
    dep ∈ (Schedule.onWorld ranks plans).requiresOf ⟨rank, 3 * round + 2⟩ ↔
      dep = ⟨rank, 3 * round + 1⟩ := by
  rw [Schedule.mem_requiresOf_onWorld hrank (h.planned_calc hpair hcost) (by simp)]
  simp

/-- A receive directly comes after its send and after what its pair waits for. -/
theorem causes_recv_iff (h : PairedPlans ranks cost sendWaits recvWaits pairsOf plans)
    (hrank : rank < ranks) (hpair : (pairsOf rank)[round]? = some pair) {cause : OpId} :
    (Schedule.onWorld ranks plans).Causes cause ⟨rank, stride cost * round + 1⟩ ↔
      (∃ earlier, .own earlier ∈ recvWaits round ∧ cause = ⟨rank, earlier⟩) ∨
        cause = ⟨pair.source, stride cost * round⟩ := by
  have hmatched := h.matched hrank hpair
  rw [Schedule.Causes, h.mem_requiresOf_recv hrank hpair]
  constructor
  · rintro (hwait | hmatch)
    · exact Or.inl hwait
    · exact Or.inr (hmatch.sender_unique hmatched)
  · rintro (hwait | rfl)
    · exact Or.inl hwait
    · exact Or.inr hmatched

/-- A send directly comes after what its pair waits for only. -/
theorem causes_send_iff (h : PairedPlans ranks cost sendWaits recvWaits pairsOf plans)
    (hrank : rank < ranks) (hpair : (pairsOf rank)[round]? = some pair) {cause : OpId} :
    (Schedule.onWorld ranks plans).Causes cause ⟨rank, stride cost * round⟩ ↔
      ∃ earlier, .own earlier ∈ sendWaits round ∧ cause = ⟨rank, earlier⟩ := by
  obtain ⟨requires, hsend⟩ := h.op?_send hrank hpair
  rw [Schedule.Causes, h.mem_requiresOf_send hrank hpair]
  constructor
  · rintro (hwait | hmatch)
    · exact hwait
    · obtain ⟨size, size', tag, requires₁, requires₁', -, hrecv⟩ := hmatch.ops
      simp [hsend] at hrecv
  · exact Or.inl

/-- A computation directly comes after the receive before it only. -/
theorem causes_calc_iff (h : PairedPlans ranks cost sendWaits recvWaits pairsOf plans)
    (hrank : rank < ranks) (hpair : (pairsOf rank)[round]? = some pair) (hcost : cost ≠ 0)
    {cause : OpId} :
    (Schedule.onWorld ranks plans).Causes cause ⟨rank, 3 * round + 2⟩ ↔
      cause = ⟨rank, 3 * round + 1⟩ := by
  obtain ⟨requires, hop⟩ := Schedule.op?_of_planned hrank (h.planned_calc hpair hcost)
    fun peer hpeer => by cases hpeer
  rw [Schedule.Causes, h.mem_requiresOf_calc hrank hpair hcost]
  simp [(Schedule.not_matched_of_calc hop cause).2]

end PairedPlans
end Collectives
