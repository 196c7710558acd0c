import Collectives.Exchange
import Collectives.Proofs.Levels

/-!
# Plans made of pairs

All exchanges put the operations of their pairs one pair after another: the send, the receive, and
the computation if there is one. They differ in what the operations wait for. A plan of this form
is coherent as soon as its waits are for earlier pairs and the pairs of any two ranks mirror each
other.
-/

namespace Collectives

def stride (cost : Nat) : Nat := if cost = 0 then 2 else 3

theorem two_le_stride (cost : Nat) : 2 ≤ stride cost := by
  unfold stride
  split <;> omega

theorem stride_pos (cost : Nat) : 0 < stride cost := by
  have := two_le_stride cost
  omega

/-- The operations of the pair with the number `k`. -/
def pairBlock (cost : Nat) (sendWaits recvWaits : Nat → List Wait) (k : Nat) (pair : Pair) :
    List Planned :=
  ⟨.send pair.destination pair.sendSize pair.tag, sendWaits k⟩ ::
    ⟨.recv pair.source pair.recvSize pair.tag, recvWaits k⟩ ::
      if cost = 0 then [] else [⟨.calc cost, [.own (3 * k + 1)]⟩]

/-- The operations of the pairs from the number `k` on. -/
def pairOps (cost : Nat) (sendWaits recvWaits : Nat → List Wait) : (k : Nat) → List Pair →
    List Planned
  | _, [] => []
  | k, pair :: rest =>
    pairBlock cost sendWaits recvWaits k pair ++ pairOps cost sendWaits recvWaits (k + 1) rest

/-- The two halves of the pair `k` are on level `2 * k`, the computation behind it one higher. -/
def pairLevel (cost position : Nat) : Nat :=
  2 * (position / stride cost) + position % stride cost / 2

/-- What stands at a position of `pairOps`: an operation of one of its pairs. -/
inductive PairOp (cost : Nat) (sendWaits recvWaits : Nat → List Wait) (pairs : List Pair) :
    Nat → Planned → Prop where
  | send {k : Nat} {pair : Pair} (h : pairs[k]? = some pair) :
      PairOp cost sendWaits recvWaits pairs (stride cost * k)
        ⟨.send pair.destination pair.sendSize pair.tag, sendWaits k⟩
  | recv {k : Nat} {pair : Pair} (h : pairs[k]? = some pair) :
      PairOp cost sendWaits recvWaits pairs (stride cost * k + 1)
        ⟨.recv pair.source pair.recvSize pair.tag, recvWaits k⟩
  | compute {k : Nat} {pair : Pair} (h : pairs[k]? = some pair) (hcost : cost ≠ 0) :
      PairOp cost sendWaits recvWaits pairs (3 * k + 2) ⟨.calc cost, [.own (3 * k + 1)]⟩

section PairOps

variable {cost : Nat} {sendWaits recvWaits : Nat → List Wait}

@[simp] theorem length_pairBlock (k : Nat) (pair : Pair) :
    (pairBlock cost sendWaits recvWaits k pair).length = stride cost := by
  unfold pairBlock stride
  split <;> rfl

@[simp] theorem length_pairOps (first : Nat) (pairs : List Pair) :
    (pairOps cost sendWaits recvWaits first pairs).length = stride cost * pairs.length := by
  induction pairs generalizing first with
  | nil => rfl
  | cons pair pairs ih =>
    rw [pairOps, List.length_append, length_pairBlock, ih, List.length_cons, Nat.mul_succ,
      Nat.add_comm]

theorem getElem?_pairOps_from (first position : Nat) (pairs : List Pair) :
    (pairOps cost sendWaits recvWaits first pairs)[position]? =
      pairs[position / stride cost]?.bind fun pair =>
        (pairBlock cost sendWaits recvWaits (first + position / stride cost)
          pair)[position % stride cost]? := by
  induction pairs generalizing first position with
  | nil => simp [pairOps]
  | cons pair pairs ih =>
    rw [pairOps]
    by_cases hlt : position < stride cost
    · rw [List.getElem?_append_left (by simpa using hlt), Nat.div_eq_of_lt hlt,
        Nat.mod_eq_of_lt hlt]
      rfl
    · obtain ⟨rest, rfl⟩ := Nat.exists_eq_add_of_le (Nat.le_of_not_lt hlt)
      rw [List.getElem?_append_right (by simp), length_pairBlock, Nat.add_sub_cancel_left, ih,
        Nat.add_div_left _ (stride_pos cost), Nat.add_mod_left, List.getElem?_cons_succ,
        Nat.add_assoc, Nat.add_comm 1]

theorem mul_add_div_stride (k : Nat) {i : Nat} (hi : i < stride cost) :
    (stride cost * k + i) / stride cost = k := by
  rw [Nat.mul_add_div (stride_pos cost), Nat.div_eq_of_lt hi, Nat.add_zero]

theorem getElem?_pairOps_block {pairs : List Pair} {k : Nat} {pair : Pair}
    (h : pairs[k]? = some pair) {i : Nat} (hi : i < stride cost) :
    (pairOps cost sendWaits recvWaits 0 pairs)[stride cost * k + i]? =
      (pairBlock cost sendWaits recvWaits k pair)[i]? := by
  have hmod : (stride cost * k + i) % stride cost = i := by
    rw [Nat.mul_add_mod, Nat.mod_eq_of_lt hi]
  rw [getElem?_pairOps_from, mul_add_div_stride k hi, hmod, h, Nat.zero_add]
  rfl

theorem getElem?_pairOps {pairs : List Pair} {position : Nat} {planned : Planned} :
    (pairOps cost sendWaits recvWaits 0 pairs)[position]? = some planned ↔
      PairOp cost sendWaits recvWaits pairs position planned := by
  constructor
  · intro h
    rw [getElem?_pairOps_from, Nat.zero_add, Option.bind_eq_some_iff] at h
    obtain ⟨pair, hpair, hblock⟩ := h
    have hposition := Nat.div_add_mod position (stride cost)
    rw [← hposition]
    by_cases hcost : cost = 0
    · match hi : position % stride cost, hblock with
      | 0, hblock => cases hblock; exact .send hpair
      | 1, hblock => cases hblock; exact .recv hpair
      | i + 2, hblock => simp [pairBlock, hcost] at hblock
    · match hi : position % stride cost, hblock with
      | 0, hblock => cases hblock; exact .send hpair
      | 1, hblock => cases hblock; exact .recv hpair
      | 2, hblock =>
        simp only [pairBlock, if_neg hcost, List.getElem?_cons_succ, List.getElem?_cons_zero,
          Option.some.injEq] at hblock
        subst hblock
        rw [show stride cost = 3 from if_neg hcost] at hpair ⊢
        exact .compute hpair hcost
      | i + 3, hblock => simp [pairBlock, hcost] at hblock
  · intro h
    cases h with
    | send h => exact getElem?_pairOps_block h (stride_pos cost)
    | recv h => exact getElem?_pairOps_block h (two_le_stride cost)
    | compute h hcost =>
      have hstride : stride cost = 3 := if_neg hcost
      rw [← hstride, getElem?_pairOps_block h (by omega)]
      simp [pairBlock, hcost, hstride]

theorem pairLevel_mul_add (k : Nat) {i : Nat} (hi : i < stride cost) :
    pairLevel cost (stride cost * k + i) = 2 * k + i / 2 := by
  rw [pairLevel, mul_add_div_stride k hi, Nat.mul_add_mod, Nat.mod_eq_of_lt hi]

theorem pairLevel_lt {position k : Nat} (h : position < stride cost * k) :
    pairLevel cost position < 2 * k := by
  have hdiv : position / stride cost < k := Nat.div_lt_of_lt_mul h
  have hmod := Nat.mod_lt position (stride_pos cost)
  have hstride : stride cost ≤ 3 := by
    unfold stride
    split <;> omega
  unfold pairLevel
  omega

/-- An operation of pairs that wait for earlier pairs only waits for operations before it, on lower
levels. -/
theorem PairOp.waits_earlier {pairs : List Pair} {position : Nat} {planned : Planned}
    (hsend : ∀ k, ∀ wait ∈ sendWaits k, ∃ earlier < stride cost * k, wait = .own earlier)
    (hrecv : ∀ k, ∀ wait ∈ recvWaits k, ∃ earlier < stride cost * k, wait = .own earlier)
    (h : PairOp cost sendWaits recvWaits pairs position planned) :
    ∀ wait ∈ planned.waits, ∃ earlier < position, wait = .own earlier ∧
      pairLevel cost earlier < pairLevel cost position := by
  intro wait hwait
  cases h with
  | @send k pair h =>
    obtain ⟨earlier, hlt, rfl⟩ := hsend k wait hwait
    have hlevel : pairLevel cost (stride cost * k) = 2 * k := pairLevel_mul_add k (stride_pos cost)
    exact ⟨earlier, hlt, rfl, hlevel ▸ pairLevel_lt hlt⟩
  | @recv k pair h =>
    obtain ⟨earlier, hlt, rfl⟩ := hrecv k wait hwait
    have hlevel : pairLevel cost (stride cost * k + 1) = 2 * k :=
      pairLevel_mul_add k (two_le_stride cost)
    exact ⟨earlier, by omega, rfl, hlevel ▸ pairLevel_lt hlt⟩
  | @compute k pair h hcost =>
    have hstride : stride cost = 3 := if_neg hcost
    have hlevel : ∀ i < stride cost, pairLevel cost (stride cost * k + i) = 2 * k + i / 2 :=
      fun i hi => pairLevel_mul_add k hi
    rw [hstride] at hlevel
    obtain rfl := List.mem_singleton.1 hwait
    refine ⟨3 * k + 1, by omega, rfl, ?_⟩
    rw [hlevel 1 (by omega), hlevel 2 (by omega)]
    omega

/-- A selection that takes the sends or the receives of pairs finds one operation in each pair, on
the level of the pair. -/
theorem ends_pairOps {size? : Action → Option Nat} {choose : Pair → Option Nat}
    (hcalc : ∀ cost, size? (.calc cost) = none)
    (hpair : ∀ pair : Pair,
      (size? (.send pair.destination pair.sendSize pair.tag) = choose pair ∧
        size? (.recv pair.source pair.recvSize pair.tag) = none) ∨
      (size? (.send pair.destination pair.sendSize pair.tag) = none ∧
        size? (.recv pair.source pair.recvSize pair.tag) = choose pair))
    (first : Nat) (pairs : List Pair) :
    ((pairOps cost sendWaits recvWaits first pairs).zipIdx (stride cost * first)).filterMap
        (fun (planned, position) => (size? planned.action).map (·, pairLevel cost position)) =
      (pairs.zipIdx first).filterMap fun (pair, k) => (choose pair).map (·, 2 * k) := by
  induction pairs generalizing first with
  | nil => rfl
  | cons pair pairs ih =>
    have hsend : pairLevel cost (stride cost * first) = 2 * first :=
      pairLevel_mul_add first (stride_pos cost)
    have hrecv : pairLevel cost (stride cost * first + 1) = 2 * first :=
      pairLevel_mul_add first (two_le_stride cost)
    have hblock : ((pairBlock cost sendWaits recvWaits first pair).zipIdx
          (stride cost * first)).filterMap
          (fun (planned, position) => (size? planned.action).map (·, pairLevel cost position)) =
        ((choose pair).map (·, 2 * first)).toList := by
      have htail : ∀ position, ((if cost = 0 then [] else
            [(⟨.calc cost, [.own (3 * first + 1)]⟩ : Planned)]).zipIdx position).filterMap
            (fun (planned, position) =>
              (size? planned.action).map (·, pairLevel cost position)) = [] := by
        intro position
        split <;> simp [hcalc]
      rcases hpair pair with ⟨hs, hr⟩ | ⟨hs, hr⟩ <;> cases hc : choose pair <;>
        simp [pairBlock, hs, hr, hc, hsend, hrecv, htail]
    rw [pairOps, List.zipIdx_append, List.filterMap_append, hblock, length_pairBlock,
      ← Nat.mul_succ, ih, List.zipIdx_cons]
    cases hc : choose pair <;> simp [hc]

end PairOps

namespace Pair

/-- The size of what a pair sends to `peer` under `tag`. -/
def sentTo? (peer : Nat) (tag : Tag) (pair : Pair) : Option Nat :=
  Action.sentTo? peer tag (.send pair.destination pair.sendSize pair.tag)

def receivedFrom? (peer : Nat) (tag : Tag) (pair : Pair) : Option Nat :=
  Action.receivedFrom? peer tag (.recv pair.source pair.recvSize pair.tag)

/-- The pairs of the ranks below `size` lie among these ranks, never end at their own rank, and what
one rank sends to another at a step the other receives at that step. -/
structure Mirrored (size : Nat) (pairsOf : Nat → List Pair) : Prop where
  ends : ∀ rank < size, ∀ pair ∈ pairsOf rank,
    (pair.source < size ∧ pair.source ≠ rank) ∧ pair.destination < size ∧ pair.destination ≠ rank
  agree : ∀ a < size, ∀ b < size, ∀ tag,
    (pairsOf a).map (sentTo? b tag) = (pairsOf b).map (receivedFrom? a tag)

end Pair

theorem PairOp.peer_inside {size cost rank : Nat} {sendWaits recvWaits : Nat → List Wait}
    {pairsOf : Nat → List Pair} {position : Nat} {planned : Planned}
    (hpairs : Pair.Mirrored size pairsOf) (hrank : rank < size)
    (h : PairOp cost sendWaits recvWaits (pairsOf rank) position planned) :
    ∀ peer, planned.action.peer? = some peer → peer < size ∧ peer ≠ rank := by
  intro peer hpeer
  cases h with
  | send h =>
    cases hpeer
    exact (hpairs.ends rank hrank _ (List.mem_of_getElem? h)).2
  | recv h =>
    cases hpeer
    exact (hpairs.ends rank hrank _ (List.mem_of_getElem? h)).1
  | compute h => cases hpeer

namespace RankPlan

/-- A plan whose waits are all for operations before the one that waits fits any schedule. -/
theorem fits_of_backward {plan : RankPlan} {size count : Nat}
    (h : ∀ position planned, plan.flatten[position]? = some planned →
      (∀ peer, planned.action.peer? = some peer → peer < size) ∧
      ∀ wait ∈ planned.waits, ∃ earlier < count + position, wait = .own earlier)
    (s : Schedule) : plan.Fits s size count := by
  induction plan generalizing count with
  | nil => trivial
  | cons round plan ih =>
    constructor
    · intro planned hmem
      obtain ⟨position, hlt, hget⟩ := List.mem_iff_getElem.1 hmem
      have hat : (List.flatten (round :: plan))[position]? = some planned := by
        rw [List.flatten_cons, List.getElem?_append_left hlt, List.getElem?_eq_getElem hlt, hget]
      obtain ⟨hpeer, hwaits⟩ := h position planned hat
      refine ⟨hpeer, fun wait hwait => ?_⟩
      obtain ⟨earlier, hearlier, rfl⟩ := hwaits wait hwait
      show earlier < count + round.length
      omega
    · apply ih
      intro position planned hget
      have hat : (List.flatten (round :: plan))[round.length + position]? = some planned := by
        rw [List.flatten_cons, List.getElem?_append_right (by omega), Nat.add_sub_cancel_left]
        exact hget
      rw [Nat.add_assoc]
      exact h _ planned hat

theorem ends_of_pairs {plan : RankPlan} {cost : Nat} {sendWaits recvWaits : Nat → List Wait}
    {pairs : List Pair} {size? : Action → Option Nat} {choose : Pair → Option Nat}
    (hplan : plan.flatten = pairOps cost sendWaits recvWaits 0 pairs)
    (hcalc : ∀ cost, size? (.calc cost) = none)
    (hpair : ∀ pair : Pair,
      (size? (.send pair.destination pair.sendSize pair.tag) = choose pair ∧
        size? (.recv pair.source pair.recvSize pair.tag) = none) ∨
      (size? (.send pair.destination pair.sendSize pair.tag) = none ∧
        size? (.recv pair.source pair.recvSize pair.tag) = choose pair)) :
    plan.ends size? (pairLevel cost) =
      (pairs.map choose).zipIdx.filterMap fun (size, k) => size.map (·, 2 * k) := by
  rw [ends, hplan, List.zipIdx_map, List.filterMap_map]
  exact ends_pairOps hcalc hpair 0 pairs

/-- Plans made of mirrored pairs whose operations wait for earlier pairs only are coherent. -/
theorem coherent_of_pairs {size cost : Nat} {plans : Nat → RankPlan} {pairsOf : Nat → List Pair}
    {sendWaits recvWaits : Nat → List Wait}
    (hplans : ∀ rank, (plans rank).flatten = pairOps cost sendWaits recvWaits 0 (pairsOf rank))
    (hsend : ∀ k, ∀ wait ∈ sendWaits k, ∃ earlier < stride cost * k, wait = .own earlier)
    (hrecv : ∀ k, ∀ wait ∈ recvWaits k, ∃ earlier < stride cost * k, wait = .own earlier)
    (hpairs : Pair.Mirrored size pairsOf) :
    Coherent size plans fun _ => pairLevel cost := by
  have hop : ∀ rank position planned, (plans rank).flatten[position]? = some planned →
      PairOp cost sendWaits recvWaits (pairsOf rank) position planned := by
    intro rank position planned hget
    rwa [hplans, getElem?_pairOps] at hget
  refine ⟨?_, ?_, ?_, ?_⟩
  · intro rank hrank s
    apply fits_of_backward
    intro position planned hget
    refine ⟨fun peer hpeer => ((hop _ _ _ hget).peer_inside hpairs hrank peer hpeer).1, ?_⟩
    intro wait hwait
    obtain ⟨earlier, hlt, rfl, -⟩ := (hop _ _ _ hget).waits_earlier hsend hrecv wait hwait
    exact ⟨earlier, by omega, rfl⟩
  · intro rank hrank position planned hget wait hwait
    obtain ⟨earlier, hlt, rfl, hlevel⟩ := (hop _ _ _ hget).waits_earlier hsend hrecv wait hwait
    have hposition := (List.getElem?_eq_some_iff.1 hget).1
    exact ⟨earlier, by omega, rfl, hlevel⟩
  · intro rank hrank planned hmem
    obtain ⟨position, hget⟩ := List.mem_iff_getElem?.1 hmem
    exact (hop _ _ _ hget).peer_inside hpairs hrank
  · intro a ha b hb tag
    have hout : (plans a).ends (Action.sentTo? b tag) (pairLevel cost) =
        ((pairsOf a).map (Pair.sentTo? b tag)).zipIdx.filterMap fun (size, k) =>
          size.map (·, 2 * k) :=
      ends_of_pairs (hplans a) (fun _ => rfl) fun _ => Or.inl ⟨rfl, rfl⟩
    have hin : (plans b).ends (Action.receivedFrom? a tag) (pairLevel cost) =
        ((pairsOf b).map (Pair.receivedFrom? a tag)).zipIdx.filterMap fun (size, k) =>
          size.map (·, 2 * k) :=
      ends_of_pairs (hplans b) (fun _ => rfl) fun _ => Or.inr ⟨rfl, rfl⟩
    rw [hout, hin, hpairs.agree a ha b hb tag]

end RankPlan
end Collectives
