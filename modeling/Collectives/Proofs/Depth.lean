import Collectives.Proofs.ButterflySums
import Collectives.Proofs.Calls
import Collectives.Proofs.RingSums
import Collectives.Proofs.Spread
import Collectives.Proofs.TreeDepth

/-!
# The depth of every collective

How many messages, one after another, a collective takes on a number of ranks: the simulated
latency. But for the tree it follows from how far back the pairs wait.
-/

namespace Collectives

open Schedule

namespace PairedPlans

variable {cost : Nat} {waits : Nat → List Wait}

/-- What waits for an operation of a pair before it lies at least one round back. -/
theorem one_round_back
    (hback : ∀ k, ∀ wait ∈ waits k, ∃ earlier < stride cost * k, wait = .own earlier)
    (round earlier : Nat) (hwait : .own earlier ∈ waits round) :
    earlier / stride cost + 1 ≤ round := by
  obtain ⟨_, hlt, ⟨⟩⟩ := hback round _ hwait
  exact Nat.div_lt_of_lt_mul hlt

end PairedPlans

namespace ChainedPlans

variable {ranks cost : Nat} {tags : List Tag} {pairsOf : Nat → List Pair} {plans : Nat → RankPlan}

/-- A send waits for the receive one round back, if need be through the computation behind it. -/
theorem spaced (h : ChainedPlans ranks cost tags pairsOf plans) :
    PairedPlans.Spaced ranks cost 1 tags.length (RankPlan.chainWaits cost)
      (RankPlan.chainWaits cost) pairsOf (onWorld ranks plans) where
  window_pos := Nat.one_pos
  length_eq rank := by rw [← h.tags_eq rank, List.length_map]
  sends_far := PairedPlans.one_round_back (RankPlan.chainWaits_earlier cost)
  recvs_far := PairedPlans.one_round_back (RankPlan.chainWaits_earlier cost)
  needs := by
    intro rank hrank round hround
    obtain ⟨pair, hpair, -⟩ := h.exists_pair rank hround
    obtain ⟨before, hbefore, -⟩ := h.exists_pair rank (Nat.lt_of_succ_lt hround)
    have hlast : ⟨rank, stride cost * (round + 1) - 1⟩ ∈
        (onWorld ranks plans).requiresOf ⟨rank, stride cost * (round + 1)⟩ :=
      (h.paired.mem_requiresOf_send hrank hpair).2 ⟨_, List.mem_singleton.2 rfl, rfl⟩
    by_cases hcost : cost = 0
    · have hstride : stride cost = 2 := if_pos hcost
      rw [hstride] at hlast ⊢
      exact .direct hlast
    · have hstride : stride cost = 3 := if_neg hcost
      have hcalc := (h.paired.mem_requiresOf_calc hrank hbefore hcost).2 rfl
      obtain ⟨requires, hop⟩ := op?_of_planned hrank (h.paired.planned_calc hbefore hcost)
        fun peer hpeer => by cases hpeer
      rw [hstride] at hlast ⊢
      exact .through hlast hop (.direct hcalc)

theorem hasDepth (h : ChainedPlans ranks cost tags pairsOf plans) (hranks : 0 < ranks) :
    (onWorld ranks plans).HasDepth tags.length := by
  have hdepth := h.paired.hasDepth hranks h.spaced
  rwa [ceilDiv_one] at hdepth

end ChainedPlans

namespace Dissemination

variable {size : Nat} {tag : Tag} {ranks : Nat}

theorem spaced (size : Nat) (tag : Tag) (ranks : Nat) :
    PairedPlans.Spaced ranks 0 1 (doublings ranks) sendWaits (fun _ => [])
      (pairs size tag ranks) (built size tag ranks) where
  window_pos := Nat.one_pos
  length_eq rank := by
    rw [pairs, Pair.shifts, List.length_map, List.length_map, length_distancesFrom]
  sends_far := PairedPlans.one_round_back sendWaits_earlier
  recvs_far := by simp
  needs := by
    intro rank hrank round hround
    have hpair := (@getElem?_pairs size tag ranks rank (round + 1) _).2
      ⟨lt_doublings_iff.1 hround, rfl⟩
    exact .direct (((paired size tag ranks).mem_requiresOf_send hrank hpair).2
      ⟨_, List.mem_singleton.2 rfl, rfl⟩)

theorem hasDepth (size : Nat) (tag : Tag) (hranks : 0 < ranks) :
    (built size tag ranks).HasDepth (Nat.clog 2 ranks) := by
  have hdepth := (paired size tag ranks).hasDepth hranks (spaced size tag ranks)
  rwa [ceilDiv_one, doublings_eq_clog] at hdepth

end Dissemination

namespace Alltoall

variable {ranks : Nat}

theorem spaced_windowed (sizeOf : Nat → Nat → Nat) (tag : Tag) (ranks : Nat) {window : Nat}
    (hwindow : window ≠ 0) :
    PairedPlans.Spaced ranks 0 window (ranks - 1) (RankPlan.windowWaits window)
      (RankPlan.windowWaits window) (pairs sizeOf tag ranks)
      (onWorld ranks fun rank => .windowed window (pairs sizeOf tag ranks rank)) := by
  have hfar : ∀ round earlier, .own earlier ∈ RankPlan.windowWaits window round →
      earlier / stride 0 + window ≤ round := by
    intro round earlier hwait
    rw [show stride 0 = 2 from rfl]
    unfold RankPlan.windowWaits at hwait
    split at hwait
    case isTrue => cases hwait
    case isFalse hround =>
      rcases List.mem_pair.1 hwait with hwait | hwait <;> have := Wait.own.inj hwait <;> omega
  refine ⟨Nat.pos_of_ne_zero hwindow, length_pairs sizeOf tag ranks, hfar, hfar, ?_⟩
  intro rank hrank round hround
  have hpair := (@getElem?_pairs sizeOf tag ranks rank (round + window) _).2
    ⟨show round + window + 1 < ranks by omega, rfl⟩
  refine .direct (((paired_windowed sizeOf tag ranks hwindow).mem_requiresOf_send hrank hpair).2
    ⟨_, ?_, rfl⟩)
  rw [RankPlan.windowWaits, if_neg (by omega), Nat.add_sub_cancel]
  exact List.mem_pair.2 (Or.inr rfl)

theorem hasDepth_windowed (sizeOf : Nat → Nat → Nat) (tag : Tag) (hranks : 0 < ranks)
    {window : Nat} (hwindow : window ≠ 0) :
    (onWorld ranks fun rank => .windowed window (pairs sizeOf tag ranks rank)).HasDepth
      ((ranks - 1) ⌈/⌉ window) :=
  (paired_windowed sizeOf tag ranks hwindow).hasDepth hranks
    (spaced_windowed sizeOf tag ranks hwindow)

/-- Pairs that wait for nothing are all in one window. -/
theorem spaced_parallel (sizeOf : Nat → Nat → Nat) (tag : Tag) (ranks : Nat) :
    PairedPlans.Spaced ranks 0 (max 1 (ranks - 1)) (ranks - 1) (fun _ => []) (fun _ => [])
      (pairs sizeOf tag ranks)
      (onWorld ranks fun rank => .parallel (pairs sizeOf tag ranks rank)) where
  window_pos := by omega
  length_eq := length_pairs sizeOf tag ranks
  sends_far := by simp
  recvs_far := by simp
  needs := by omega

theorem hasDepth_parallel (sizeOf : Nat → Nat → Nat) (tag : Tag) (hranks : 0 < ranks) :
    (onWorld ranks fun rank => .parallel (pairs sizeOf tag ranks rank)).HasDepth
      (min 1 (ranks - 1)) := by
  have hdepth := (paired_parallel sizeOf tag ranks).hasDepth hranks
    (spaced_parallel sizeOf tag ranks)
  have hone : (ranks - 1) ⌈/⌉ max 1 (ranks - 1) = min 1 (ranks - 1) := by
    rcases Nat.eq_zero_or_pos (ranks - 1) with hzero | hpos
    · rw [hzero]
      rfl
    · have hless := Nat.sub_one_lt_of_lt hpos
      rw [Nat.max_eq_right hpos, Nat.min_eq_left hpos, Nat.ceilDiv_eq_add_pred_div,
        Nat.add_sub_assoc hpos, Nat.add_div_left _ hpos, Nat.div_eq_of_lt hless]
  rwa [hone] at hdepth

end Alltoall

namespace Builder

/-- The messages, one after another, that a collective takes. -/
def depth (ranks : Nat) : Builder → Nat
  | tree .. => ranks.log2
  | dissemination .. => Nat.clog 2 ranks
  | recursiveDoubling _ => 2 * ranks.log2
  | ring _ => 2 * (ranks - 1)
  | allreduce algorithm r =>
    match algorithm.forSize r.size with
    | .recursiveDoubling => 2 * ranks.log2
    | .ring | .bySize => 2 * (ranks - 1)
  | windowed request => (ranks - 1) ⌈/⌉ request.window
  | balanced _ => min 1 (ranks - 1)
  | unbalanced .. => min 1 (ranks - 1)

variable {ranks : Nat} {r : Reduction} {plans : Nat → RankPlan}

theorem hasDepth_butterfly (hranks : 0 < ranks) (h : Butterfly.allreduce r ranks = .ok plans) :
    (onWorld ranks plans).HasDepth (2 * ranks.log2) := by
  obtain ⟨k, secondTag, rfl, -, rfl⟩ := Butterfly.exists_secondTag h
  have hdepth := (Butterfly.chainedPlans r secondTag k).hasDepth hranks
  rw [Nat.log2_two_pow]
  rwa [length_twoPhases] at hdepth

theorem hasDepth_ring (hranks : 0 < ranks) (h : Ring.allreduce r ranks = .ok plans) :
    (onWorld ranks plans).HasDepth (2 * (ranks - 1)) := by
  obtain ⟨secondTag, -, rfl⟩ := Ring.exists_secondTag h
  have hdepth := (Ring.chainedPlans r secondTag ranks).hasDepth hranks
  rwa [length_twoPhases] at hdepth

theorem hasDepth_plans (builder : Builder) (hranks : 0 < ranks)
    (hplans : builder.pattern ranks = .ok plans) :
    (onWorld ranks plans).HasDepth (builder.depth ranks) := by
  cases builder with
  | tree size tag direction =>
    cases hplans
    exact Binomial.hasDepth size tag direction hranks
  | dissemination size tag =>
    cases hplans
    exact Dissemination.hasDepth size tag hranks
  | recursiveDoubling r => exact hasDepth_butterfly hranks hplans
  | ring r => exact hasDepth_ring hranks hplans
  | allreduce algorithm r =>
    rw [pattern, Allreduce.pattern] at hplans
    rw [depth]
    cases halgorithm : algorithm.forSize r.size with
    | recursiveDoubling =>
      rw [halgorithm] at hplans
      exact hasDepth_butterfly hranks hplans
    | ring | bySize =>
      rw [halgorithm] at hplans
      exact hasDepth_ring hranks hplans
  | windowed request =>
    obtain ⟨hwindow, rfl⟩ := Alltoall.plans_windowed hplans
    exact Alltoall.hasDepth_windowed _ request.tag hranks hwindow
  | balanced request =>
    cases hplans
    exact Alltoall.hasDepth_parallel _ request.tag hranks
  | unbalanced request sizes =>
    obtain rfl := Alltoall.plans_unbalanced hplans
    exact Alltoall.hasDepth_parallel _ request.tag hranks

/-- Whatever its parameters, a collective that accepts a number of ranks is built, and the longest
chains of messages in its schedule have the length of its depth. -/
theorem message_depth (builder : Builder) (hranks : 0 < ranks)
    (hplans : builder.pattern ranks = .ok plans) :
    ∃ s, builder.pattern.schedule ranks = .ok s ∧ s.HasDepth (builder.depth ranks) := by
  obtain ⟨level, hcoherent⟩ := builder.coherent ranks plans hplans
  exact ⟨_, Pattern.schedule_eq hranks hplans hcoherent, builder.hasDepth_plans hranks hplans⟩

/-- Among eleven ranks, the ten pairs of an all-to-all with a window of four take three messages, a
ring with computations twenty. -/
theorem message_depth_eleven :
    0 < 11 ∧
      (∃ s, (windowed ⟨64, 3, 4⟩).pattern.schedule 11 = .ok s ∧ s.HasDepth 3) ∧
      ∃ s, (ring ⟨64, 3, 5⟩).pattern.schedule 11 = .ok s ∧ s.HasDepth 20 :=
  ⟨by decide, message_depth (.windowed ⟨64, 3, 4⟩) (by decide) rfl,
    message_depth (.ring ⟨64, 3, 5⟩) (by decide) rfl⟩

end Builder
end Collectives
