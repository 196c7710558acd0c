import Collectives.Proofs.Executions
import Collectives.Proofs.PairedPlans
import Mathlib.Data.Finset.Empty

/-!
# Chained exchanges in rounds

When every rank makes its pairs one after another and the pairs of the ranks mirror each other, the
pairs with one number are a round: their messages are matched with each other, and a rank starts
none of them before its receive in the round before.
-/

namespace Collectives

/-- Plans of the ranks below `ranks` that make mirrored pairs one after another, every rank under
the same tags. -/
structure ChainedPlans (ranks cost : Nat) (tags : List Tag) (pairsOf : Nat → List Pair)
    (plans : Nat → RankPlan) : Prop where
  flatten : ∀ rank, (plans rank).flatten =
    pairOps cost (RankPlan.chainWaits cost) (RankPlan.chainWaits cost) 0 (pairsOf rank)
  mirrored : Pair.Mirrored ranks pairsOf
  tags_eq : ∀ rank, (pairsOf rank).map Pair.tag = tags

def chainedRounds (ranks cost : Nat) (tags : List Tag) (pairsOf : Nat → List Pair) : Rounds where
  ranks := ranks
  count := tags.length
  width := stride cost
  source rank round := (pairsOf rank)[round]?.elim 0 Pair.source
  tag round := tags.getD round 0
  place round := (tags.take round).count (tags.getD round 0)

section PairOps

variable {cost : Nat} {sendWaits recvWaits : Nat → List Wait}

theorem take_pairOps (first k : Nat) (pairs : List Pair) :
    (pairOps cost sendWaits recvWaits first pairs).take (stride cost * k) =
      pairOps cost sendWaits recvWaits first (pairs.take k) := by
  induction pairs generalizing first k with
  | nil => simp [pairOps]
  | cons pair pairs ih =>
    cases k with
    | zero => rfl
    | succ k =>
      have hlen : stride cost * (k + 1) =
          (pairBlock cost sendWaits recvWaits first pair).length + stride cost * k := by
        rw [length_pairBlock, Nat.mul_succ, Nat.add_comm]
      rw [pairOps, List.take_succ_cons, pairOps, hlen, List.take_length_add_append, ih]

theorem countP_sends (tag : Tag) (first : Nat) (pairs : List Pair) :
    (pairOps cost sendWaits recvWaits first pairs).countP
        (fun planned => planned.action.isSend && decide (planned.action.tag? = some tag)) =
      (pairs.map Pair.tag).count tag := by
  induction pairs generalizing first with
  | nil => rfl
  | cons pair pairs ih =>
    have hblock : (pairBlock cost sendWaits recvWaits first pair).countP
        (fun planned => planned.action.isSend && decide (planned.action.tag? = some tag)) =
          if pair.tag = tag then 1 else 0 := by
      by_cases hcost : cost = 0 <;> by_cases htag : pair.tag = tag <;>
        simp [pairBlock, hcost, htag, Action.isSend, Action.tag?]
    rw [pairOps, List.countP_append, ih, hblock, List.map_cons, List.count_cons, Nat.add_comm]
    simp

end PairOps

namespace ChainedPlans

variable {ranks cost : Nat} {tags : List Tag} {pairsOf : Nat → List Pair} {plans : Nat → RankPlan}
  {rank round : Nat} {pair : Pair}

theorem exists_pair (h : ChainedPlans ranks cost tags pairsOf plans) (rank : Nat)
    (hround : round < tags.length) :
    ∃ pair, (pairsOf rank)[round]? = some pair ∧ pair.tag = tags.getD round 0 ∧
      (chainedRounds ranks cost tags pairsOf).source rank round = pair.source := by
  have htags := h.tags_eq rank
  have hlen : round < (pairsOf rank).length := by
    rw [← htags, List.length_map] at hround
    exact hround
  refine ⟨(pairsOf rank)[round], List.getElem?_eq_getElem hlen, ?_, ?_⟩
  · rw [← htags]
    simp [List.getElem?_eq_getElem hlen]
  · simp [chainedRounds, List.getElem?_eq_getElem hlen]

theorem lt_length (h : ChainedPlans ranks cost tags pairsOf plans)
    (hpair : (pairsOf rank)[round]? = some pair) : round < tags.length := by
  rw [← h.tags_eq rank, List.length_map]
  exact (List.getElem?_eq_some_iff.1 hpair).1

theorem paired (h : ChainedPlans ranks cost tags pairsOf plans) :
    PairedPlans ranks cost (RankPlan.chainWaits cost) (RankPlan.chainWaits cost) pairsOf plans where
  flatten := h.flatten
  sends_back := RankPlan.chainWaits_earlier cost
  recvs_back := RankPlan.chainWaits_earlier cost
  mirrored := h.mirrored

theorem leveled (h : ChainedPlans ranks cost tags pairsOf plans) :
    (Schedule.onWorld ranks plans).Leveled fun id => pairLevel cost id.index :=
  h.paired.leveled

/-- What waits for a pair comes after the receive of that pair. -/
theorem transGen_recv (h : ChainedPlans ranks cost tags pairsOf plans) (hrank : rank < ranks)
    (hround : round < tags.length) {id : OpId}
    (hlast : (Schedule.onWorld ranks plans).Causes ⟨rank, stride cost * (round + 1) - 1⟩ id) :
    Relation.TransGen (Schedule.onWorld ranks plans).Causes ⟨rank, stride cost * round + 1⟩
      id := by
  by_cases hcost : cost = 0
  · have hstride : stride cost = 2 := if_pos hcost
    rw [hstride] at hlast ⊢
    rw [show 2 * (round + 1) - 1 = 2 * round + 1 by omega] at hlast
    exact .single hlast
  · have hstride : stride cost = 3 := if_neg hcost
    rw [hstride] at hlast ⊢
    rw [show 3 * (round + 1) - 1 = 3 * round + 2 by omega] at hlast
    obtain ⟨pair, hpair, -⟩ := h.exists_pair rank hround
    have hcalc := (h.paired.causes_calc_iff hrank hpair hcost).2 rfl
    exact .tail (.single hcalc) hlast

theorem ordinal_send (h : ChainedPlans ranks cost tags pairsOf plans) (hrank : rank < ranks)
    (round : Nat) (tag : Tag) :
    (Schedule.onWorld ranks plans).ordinal ⟨rank, stride cost * round⟩ tag =
      (tags.take round).count tag := by
  rw [Schedule.ordinal, Schedule.opsAt_onWorld plans hrank, RankPlan.opsOn, ← List.map_take,
    List.countP_map, h.flatten, take_pairOps, ← h.tags_eq rank, ← List.map_take,
    ← countP_sends tag 0]
  congr 1
  funext planned
  rw [Function.comp_apply, Planned.action_place]
  cases planned.action <;> rfl

theorem lockstep (h : ChainedPlans ranks cost tags pairsOf plans) :
    (Schedule.onWorld ranks plans).Lockstep (chainedRounds ranks cost tags pairsOf) where
  width := stride_pos cost
  source_lt := by
    intro rank hrank round hround
    obtain ⟨pair, hpair, -, hsource⟩ := h.exists_pair rank hround
    rw [hsource]
    exact (h.mirrored.ends rank hrank pair (List.mem_of_getElem? hpair)).1.1
  send := by
    intro rank hrank round hround
    obtain ⟨pair, hpair, htag, -⟩ := h.exists_pair rank hround
    obtain ⟨requires, hop⟩ := h.paired.op?_send hrank hpair
    rw [htag] at hop
    exact ⟨_, _, requires, hop⟩
  recv := by
    intro rank hrank round hround
    obtain ⟨pair, hpair, htag, -⟩ := h.exists_pair rank hround
    obtain ⟨requires, hop⟩ := h.paired.op?_recv hrank hpair
    rw [htag] at hop
    exact ⟨_, _, requires, hop⟩
  only := by
    intro id op hop hpeer
    obtain ⟨hrank, ⟨round, pair, hpair, hindex, -⟩ | ⟨round, pair, hpair, hindex, -⟩ |
      ⟨-, -, -, -, -, haction⟩⟩ := h.paired.cases_op hop
    · exact ⟨id.rank, hrank, round, h.lt_length hpair, Or.inl (congrArg (OpId.mk id.rank) hindex)⟩
    · exact ⟨id.rank, hrank, round, h.lt_length hpair, Or.inr (congrArg (OpId.mk id.rank) hindex)⟩
    · rw [haction] at hpeer
      cases hpeer
  meets := by
    intro rank hrank round hround
    obtain ⟨pair, hpair, -, hsource⟩ := h.exists_pair rank hround
    rw [hsource]
    exact h.paired.matched hrank hpair
  chained := by
    intro rank hrank round hround
    obtain ⟨pair, hpair, -⟩ := h.exists_pair rank hround
    have hwait : .own (stride cost * (round + 1) - 1) ∈ RankPlan.chainWaits cost (round + 1) :=
      List.mem_singleton.2 rfl
    have hsend := (h.paired.causes_send_iff hrank hpair).2 ⟨_, hwait, rfl⟩
    have hrecv := (h.paired.causes_recv_iff hrank hpair).2 (Or.inl ⟨_, hwait, rfl⟩)
    exact ⟨h.transGen_recv hrank (Nat.lt_of_succ_lt hround) hsend,
      h.transGen_recv hrank (Nat.lt_of_succ_lt hround) hrecv⟩
  ordinal := fun rank hrank round _ => h.ordinal_send hrank round _

end ChainedPlans

namespace Reduction

/-- The second tag exists unless the first is the last of all. -/
theorem secondTag_eq (r : Reduction) (h : r.tag < Tag.last) :
    r.secondTag = .ok (r.tag + 1) := by
  have hne : r.tag ≠ Tag.last := by
    rintro heq
    rw [heq] at h
    exact absurd h (by decide)
  rw [secondTag, Tag.next?, if_neg hne]

theorem tag_ne_secondTag (r : Reduction) : r.tag ≠ r.tag + 1 := by
  intro heq
  have hnat := congrArg UInt32.toNat heq
  have hlt := r.tag.toNat_lt
  rw [UInt32.toNat_add] at hnat
  simp only [UInt32.reduceToNat] at hnat
  omega

theorem tag_ne_of_secondTag {r : Reduction} {second : Tag} (h : r.secondTag = .ok second) :
    r.tag ≠ second := by
  by_cases hlast : r.tag = Tag.last
  · simp [secondTag, Tag.next?, hlast] at h
  · rw [secondTag, Tag.next?, if_neg hlast] at h
    cases h
    exact r.tag_ne_secondTag

end Reduction

/-- The tags of two phases of the same number of rounds. -/
def twoPhases (count : Nat) (first second : Tag) : List Tag :=
  .replicate count first ++ .replicate count second

/-- Messages whose values are added in the first phase and put in place in the second. -/
def Meaning.twoPhases (first second : Tag) (added placed : (rank k : Nat) → Finset Nat) :
    Meaning where
  carried tag rank k :=
    if tag = first then added rank k else if tag = second then placed rank k else ∅
  adds tag := tag = first

section TwoPhases

variable {ranks cost count round : Nat} {first second : Tag} {pairsOf : Nat → List Pair}
  {added placed : (rank k : Nat) → Finset Nat}

@[simp] theorem length_twoPhases (count : Nat) (first second : Tag) :
    (twoPhases count first second).length = 2 * count := by
  simp [twoPhases, Nat.two_mul]

theorem getD_twoPhases (hround : round < 2 * count) :
    (twoPhases count first second).getD round 0 = if round < count then first else second := by
  rw [twoPhases, List.getD_eq_getElem?_getD]
  split
  case isTrue hlt =>
    rw [List.getElem?_append_left (by simpa using hlt)]
    simp [hlt]
  case isFalse hge =>
    rw [List.getElem?_append_right (by simpa using hge)]
    have hrest : round - count < count := by omega
    simp [hrest]

theorem count_take_twoPhases (hne : first ≠ second) (hround : round < 2 * count) :
    ((twoPhases count first second).take round).count
        ((twoPhases count first second).getD round 0) =
      if round < count then round else round - count := by
  rw [getD_twoPhases hround, twoPhases, List.take_append, List.count_append, List.take_replicate,
    List.take_replicate, List.length_replicate]
  split
  case isTrue hlt =>
    rw [List.count_replicate_self, show round - count = 0 by omega]
    simp
    omega
  case isFalse hge =>
    rw [List.count_replicate_self, List.count_replicate]
    simp [hne]
    omega

/-- What is sent in a round of two phases. -/
theorem carried_twoPhases (hne : first ≠ second) (hround : round < 2 * count) (rank : Nat) :
    (chainedRounds ranks cost (twoPhases count first second) pairsOf).carried
        (.twoPhases first second added placed) rank round =
      if round < count then added rank round else placed rank (round - count) := by
  have hplace := count_take_twoPhases hne hround
  rw [getD_twoPhases hround] at hplace
  rw [Rounds.carried, chainedRounds]
  simp only [getD_twoPhases hround, hplace, Meaning.twoPhases]
  split
  case isTrue => rw [if_pos rfl]
  case isFalse => rw [if_neg hne.symm, if_pos rfl]

theorem adds_first (hround : round < count) :
    (Meaning.twoPhases first second added placed).adds
        ((chainedRounds ranks cost (twoPhases count first second) pairsOf).tag round) = true := by
  have htag := @getD_twoPhases count round first second (by omega)
  rw [if_pos hround] at htag
  exact decide_eq_true htag

theorem adds_second (hne : first ≠ second) (hround : ¬round < count)
    (hcount : round < 2 * count) :
    ¬(Meaning.twoPhases first second added placed).adds
        ((chainedRounds ranks cost (twoPhases count first second) pairsOf).tag round) = true := by
  have htag := @getD_twoPhases count round first second hcount
  rw [if_neg hround] at htag
  intro hadds
  exact hne ((of_decide_eq_true hadds).symm.trans htag)

end TwoPhases
end Collectives
