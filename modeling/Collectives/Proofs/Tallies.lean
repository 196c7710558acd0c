import Collectives.Proofs.Acceptance
import Collectives.Proofs.ButterflySums
import Collectives.Proofs.CompleteExchange
import Collectives.Proofs.RingSums
import Collectives.Proofs.Spread
import Collectives.Proofs.Store
import Collectives.Proofs.TreeShape
import Mathlib.Algebra.BigOperators.Group.Finset.Basic
import Mathlib.Tactic.Ring

/-!
# Tallies

How many operations and how many edges a collective has is known from its description, before any of
it is built. No wait of a plan is registered twice, so the edges of a schedule are the waits of its
plans; in a tree they are the children of all ranks but the root.
-/

namespace Collectives

/-- A number of operations and a number of edges. -/
structure Tally where
  ops : Nat
  edges : Nat
  deriving DecidableEq, Repr

namespace Tally

/-- A tree has a message for every rank but the root, and an edge for every child of another rank:
the root has `⌈log₂ ranks⌉` children. -/
def tree (ranks : Nat) : Tally := ⟨2 * (ranks - 1), ranks - 1 - Nat.clog 2 ranks⟩

def dissemination (ranks : Nat) : Tally :=
  ⟨2 * ranks * Nat.clog 2 ranks, ranks * (Nat.clog 2 ranks - 1)⟩

/-- An allreduce of `steps` steps in each of its two phases. -/
def allreduce (ranks steps cost : Nat) : Tally :=
  if cost = 0 then ⟨4 * steps * ranks, ranks * (4 * steps - 2)⟩
  else ⟨6 * steps * ranks, ranks * (6 * steps - 2)⟩

def windowed (ranks window : Nat) : Tally :=
  ⟨2 * ranks * (ranks - 1), 4 * ranks * (ranks - 1 - window)⟩

/-- An all-to-all with all pairs at once. -/
def parallel (ranks : Nat) : Tally := ⟨2 * ranks * (ranks - 1), 0⟩

def times (count : Nat) (tally : Tally) : Tally := ⟨count * tally.ops, count * tally.edges⟩

end Tally

namespace Schedule

def tally (s : Schedule) : Tally := ⟨s.opCount, s.edgeCount⟩

theorem ranks_eq (s : Schedule) : s.ranks = (List.range s.rankCount).map s.opsAt := by
  apply List.ext_getElem?
  intro rank
  by_cases hrank : rank < s.rankCount
  · rw [ranks_getElem? hrank, List.getElem?_map, List.getElem?_range hrank, Option.map_some]
  · have hout : s.ranks.length ≤ rank := Nat.le_of_not_lt hrank
    simp [List.getElem?_eq_none hout, hrank]

theorem tally_eq_sums (s : Schedule) :
    s.tally = ⟨∑ rank ∈ Finset.range s.rankCount, (s.opsAt rank).length,
      ∑ rank ∈ Finset.range s.rankCount, ((s.opsAt rank).map (·.requires.length)).sum⟩ := by
  rw [tally, opCount_eq_sum, edgeCount_eq_sum]
  conv_lhs => rw [s.ranks_eq, List.map_map, List.map_map]
  rfl

/-- On a world the operations and the edges are those of the plans, if no planned operation waits
for anything twice. -/
theorem tally_onWorld {ranks : Nat} {plans : Nat → RankPlan} {level : Nat → Nat → Nat}
    (hc : RankPlan.Coherent ranks plans level)
    (hnodup : ∀ rank < ranks, ∀ planned ∈ (plans rank).flatten, planned.waits.Nodup) :
    (onWorld ranks plans).tally =
      ⟨∑ rank ∈ Finset.range ranks, (plans rank).flatten.length,
        ∑ rank ∈ Finset.range ranks, ((plans rank).flatten.map (·.waits.length)).sum⟩ := by
  rw [tally_eq_sums, rankCount_onWorld]
  congr 1
  · apply Finset.sum_congr rfl
    intro rank hrank
    rw [opsAt_onWorld plans (Finset.mem_range.1 hrank), RankPlan.opsOn, List.length_map]
  · apply Finset.sum_congr rfl
    intro rank hrank
    rw [Finset.mem_range] at hrank
    rw [opsAt_onWorld plans hrank, RankPlan.opsOn, List.map_map]
    congr 1
    apply List.map_congr_left
    intro planned hmem
    obtain ⟨position, hget⟩ := List.mem_iff_getElem?.1 hmem
    have hresolved : (planned.waits.map (·.resolve rank 0)).Nodup := by
      refine (hnodup rank hrank planned hmem).map_on fun x hx y hy heq => ?_
      obtain ⟨i, -, rfl, -⟩ := hc.rising rank hrank position planned hget x hx
      obtain ⟨j, -, rfl, -⟩ := hc.rising rank hrank position planned hget y hy
      simpa [Wait.resolve] using heq
    rw [Function.comp_apply, Planned.place_eq hresolved, List.length_map]

end Schedule

section Pairs

variable {cost : Nat} {sendWaits recvWaits : Nat → List Wait}

theorem sum_waits_pairOps (first : Nat) (pairs : List Pair) :
    ((pairOps cost sendWaits recvWaits first pairs).map (·.waits.length)).sum =
      ((List.range' first pairs.length).map fun k =>
        (sendWaits k).length + (recvWaits k).length + (stride cost - 2)).sum := by
  induction pairs generalizing first with
  | nil => rfl
  | cons pair pairs ih =>
    have hblock : ((pairBlock cost sendWaits recvWaits first pair).map (·.waits.length)).sum =
        (sendWaits first).length + (recvWaits first).length + (stride cost - 2) := by
      by_cases hcost : cost = 0 <;> simp [pairBlock, stride, hcost, Nat.add_assoc]
    rw [pairOps, List.map_append, List.sum_append, hblock, ih, List.length_cons,
      List.range'_succ, List.map_cons, List.sum_cons]

/-- The first `delay` of a number of pairs wait for nothing, each other one for `width`
operations. -/
theorem sum_delayed (delay width extra count : Nat) :
    ((List.range count).map fun k => (if k < delay then 0 else width) + extra).sum =
      width * (count - delay) + extra * count := by
  induction count with
  | zero => simp
  | succ count ih =>
    rw [List.range_succ, List.map_append, List.sum_append, ih]
    by_cases hlt : count < delay
    · have hnone : count - delay = 0 ∧ count + 1 - delay = 0 := by omega
      simp [hlt, hnone, Nat.mul_succ]
    · have hone : count + 1 - delay = count - delay + 1 := by omega
      simp only [List.map_cons, List.map_nil, List.sum_cons, List.sum_nil, if_neg hlt, hone,
        Nat.mul_succ]
      omega

/-- The tally of plans with `count` pairs for every rank, in which the first `delay` pairs wait for
nothing and the two halves of a later one wait for `width` operations together. -/
theorem PairedPlans.tally_eq {ranks : Nat} {pairsOf : Nat → List Pair} {plans : Nat → RankPlan}
    (h : PairedPlans ranks cost sendWaits recvWaits pairsOf plans) {count : Nat} (delay width : Nat)
    (hcount : ∀ rank, (pairsOf rank).length = count)
    (hnodup : ∀ k, (sendWaits k).Nodup ∧ (recvWaits k).Nodup)
    (hwaits : ∀ k, (sendWaits k).length + (recvWaits k).length = if k < delay then 0 else width) :
    (Schedule.onWorld ranks plans).tally =
      ⟨ranks * (stride cost * count),
        ranks * (width * (count - delay) + (stride cost - 2) * count)⟩ := by
  have hplanned : ∀ rank < ranks, ∀ planned ∈ (plans rank).flatten, planned.waits.Nodup := by
    intro rank _ planned hmem
    obtain ⟨position, hget⟩ := List.mem_iff_getElem?.1 hmem
    rw [h.flatten, getElem?_pairOps] at hget
    cases hget with
    | send => exact (hnodup _).1
    | recv => exact (hnodup _).2
    | compute => exact List.nodup_singleton _
  rw [Schedule.tally_onWorld h.coherent hplanned]
  have hconst : ∀ x, ∑ _rank ∈ Finset.range ranks, x = ranks * x := fun x => by
    rw [Finset.sum_const_nat fun _ _ => rfl, Finset.card_range]
  congr 1
  · simp only [h.flatten, length_pairOps, hcount, hconst]
  · simp only [h.flatten, sum_waits_pairOps, hcount, hwaits, ← List.range_eq_range', sum_delayed,
      hconst]

end Pairs

theorem RankPlan.nodup_chainWaits (cost k : Nat) : (chainWaits cost k).Nodup := by
  unfold chainWaits
  split <;> simp

theorem ChainedPlans.tally_eq {ranks cost : Nat} {tags : List Tag} {pairsOf : Nat → List Pair}
    {plans : Nat → RankPlan} (h : ChainedPlans ranks cost tags pairsOf plans) {steps : Nat}
    (htags : tags.length = 2 * steps) :
    (Schedule.onWorld ranks plans).tally = .allreduce ranks steps cost := by
  have hcount : ∀ rank, (pairsOf rank).length = 2 * steps := by
    intro rank
    rw [← htags, ← h.tags_eq rank, List.length_map]
  rw [h.paired.tally_eq 1 2 hcount
    (fun k => ⟨RankPlan.nodup_chainWaits cost k, RankPlan.nodup_chainWaits cost k⟩)
    (by
      intro k
      unfold RankPlan.chainWaits
      by_cases hk : k = 0 <;> simp [hk])]
  unfold Tally.allreduce stride
  split
  · congr 1
    · ring
    · congr 1
      omega
  · congr 1
    · ring
    · congr 1
      omega

namespace Dissemination

theorem tally_built (size : Nat) (tag : Tag) (ranks : Nat) :
    (built size tag ranks).tally = .dissemination ranks := by
  have hcount : ∀ rank, (pairs size tag ranks rank).length = Nat.clog 2 ranks := by
    intro rank
    rw [pairs, Pair.shifts, List.length_map, List.length_map, length_distancesFrom,
      doublings_eq_clog]
  rw [built, (paired size tag ranks).tally_eq 1 1 hcount
    (by
      intro k
      unfold sendWaits
      split <;> simp)
    (by
      intro k
      unfold sendWaits
      by_cases hk : k = 0 <;> simp [hk])]
  rw [Tally.dissemination, stride, if_pos rfl]
  congr 1
  · ring
  · rw [Nat.sub_self, Nat.zero_mul, Nat.add_zero, Nat.one_mul]

end Dissemination

namespace Alltoall

variable {sizeOf : Nat → Nat → Nat} {tag : Tag} {ranks : Nat}

theorem tally_parallel :
    (Schedule.onWorld ranks fun rank => .parallel (pairs sizeOf tag ranks rank)).tally =
      .parallel ranks := by
  rw [(paired_parallel sizeOf tag ranks).tally_eq 0 0
    (length_pairs sizeOf tag ranks) (by simp) (by simp), Tally.parallel, stride, if_pos rfl]
  congr 1
  · ring
  · simp

theorem tally_windowed {window : Nat} (h : window ≠ 0) :
    (Schedule.onWorld ranks fun rank => .windowed window (pairs sizeOf tag ranks rank)).tally =
      .windowed ranks window := by
  rw [(paired_windowed sizeOf tag ranks h).tally_eq window 4
    (length_pairs sizeOf tag ranks)
    (fun k => ⟨nodup_windowWaits window k, nodup_windowWaits window k⟩)
    (by
      intro k
      unfold RankPlan.windowWaits RankPlan.halves
      by_cases hk : k < window <;> simp [hk]), Tally.windowed, stride, if_pos rfl]
  congr 1
  · ring
  · rw [Nat.sub_self, Nat.zero_mul, Nat.add_zero]
    ring

end Alltoall

namespace Binomial

variable {ranks : Nat}

/-- The root has a child at every distance. -/
theorem length_children_zero (ranks : Nat) :
    (children 0 ranks).length = Nat.clog 2 ranks := by
  have hchild : ∀ step ∈ List.range (doublings ranks),
      (neighbours 0 ranks step).child = some (2 ^ step) := by
    intro step hstep
    have hlt := Dissemination.lt_doublings_iff.1 (List.mem_range.1 hstep)
    exact child_neighbours.2 ⟨⟨Nat.two_pow_pos step, by omega⟩, Nat.zero_add _⟩
  rw [children, steps, List.filterMap_map, Function.comp_def, List.filterMap_congr hchild,
    List.filterMap_eq_map', List.length_map, List.length_range, doublings_eq_clog]

/-- Every rank but the root is the child of one rank. -/
theorem sum_children (ranks : Nat) :
    ∑ rank ∈ Finset.range ranks, (children rank ranks).length = ranks - 1 := by
  let parentOf := fun rank : Nat => rank - 2 ^ rank.log2
  have hchildren : ∀ rank, (children rank ranks).length =
      ((Finset.Ico 1 ranks).filter (parentOf · = rank)).card := by
    intro rank
    rw [← List.toFinset_card_of_nodup (nodup_children rank ranks)]
    congr 1
    ext child
    rw [List.mem_toFinset, Finset.mem_filter, Finset.mem_Ico]
    constructor
    · intro hmem
      have hlt := lt_of_mem_children hmem
      rw [mem_children_iff_parent? hlt] at hmem
      have hpos : child ≠ 0 := by
        rintro rfl
        rw [parent?_zero] at hmem
        cases hmem
      rw [parent?_of_pos hlt hpos, Option.some.injEq] at hmem
      exact ⟨⟨Nat.pos_of_ne_zero hpos, hlt⟩, hmem⟩
    · rintro ⟨⟨hpos, hlt⟩, hparent⟩
      rw [mem_children_iff_parent? hlt, parent?_of_pos hlt (Nat.ne_of_gt hpos), ← hparent]
  have hinto : Set.MapsTo parentOf (Finset.Ico 1 ranks : Set Nat) (Finset.range ranks) := by
    intro rank hrank
    rw [Finset.mem_coe, Finset.mem_Ico] at hrank
    rw [Finset.mem_coe, Finset.mem_range]
    exact (Nat.sub_le _ _).trans_lt hrank.2
  simp only [hchildren, ← Finset.card_eq_sum_card_fiberwise hinto, Nat.card_Ico]

/-- A rank has an operation for its parent and one for each child. If it has a parent, it has an
edge for each child. -/
theorem flatten_plan_counts (size : Nat) (tag : Tag) (direction : Direction) (ranks rank : Nat) :
    (plan size tag direction ranks rank).flatten.length =
        (parent? rank ranks).toList.length + (children rank ranks).length ∧
      ((plan size tag direction ranks rank).flatten.map (·.waits.length)).sum =
        (parent? rank ranks).toList.length * (children rank ranks).length ∧
      ∀ planned ∈ (plan size tag direction ranks rank).flatten, planned.waits.Nodup := by
  have hreceived : ((List.range (children rank ranks).length).map (Wait.own <| · + 1)).Nodup :=
    List.nodup_range.map fun i j heq => by simpa using heq
  rw [flatten_plan]
  cases direction <;> cases parent? rank ranks <;>
    simp [Function.comp_def, hreceived, Nat.add_comm]

theorem tally_built (size : Nat) (tag : Tag) (direction : Direction) (hranks : 0 < ranks) :
    (built size tag direction ranks).tally = .tree ranks := by
  obtain ⟨others, rfl⟩ : ∃ others, ranks = others + 1 := ⟨ranks - 1, by omega⟩
  have hcounts := flatten_plan_counts size tag direction (others + 1)
  have hparent : ∀ rank ∈ Finset.range others,
      (parent? (rank + 1) (others + 1)).toList.length = 1 := by
    intro rank hrank
    rw [Finset.mem_range] at hrank
    rw [parent?_of_pos (by omega) (Nat.succ_ne_zero rank)]
    rfl
  have hsum := sum_children (others + 1)
  rw [Finset.sum_range_succ', length_children_zero] at hsum
  rw [built, Schedule.tally_onWorld (coherent_plan size tag direction _)
    fun rank _ => (hcounts rank).2.2]
  simp only [(hcounts _).1, (hcounts _).2.1, Finset.sum_range_succ', parent?_zero,
    length_children_zero]
  have hops : ∑ rank ∈ Finset.range others, ((parent? (rank + 1) (others + 1)).toList.length +
        (children (rank + 1) (others + 1)).length) =
      others + ∑ rank ∈ Finset.range others, (children (rank + 1) (others + 1)).length := by
    rw [Finset.sum_add_distrib, Finset.sum_congr rfl hparent, Finset.sum_const_nat fun _ _ => rfl,
      Finset.card_range, Nat.mul_one]
  have hedges : ∑ rank ∈ Finset.range others, (parent? (rank + 1) (others + 1)).toList.length *
        (children (rank + 1) (others + 1)).length =
      ∑ rank ∈ Finset.range others, (children (rank + 1) (others + 1)).length :=
    Finset.sum_congr rfl fun rank hrank => by rw [hparent rank hrank, Nat.one_mul]
  rw [hops, hedges, Tally.tree, Option.toList_none, List.length_nil, Nat.zero_mul]
  congr 1 <;> omega

end Binomial

namespace Groups

variable {count size : Nat} {pattern : Nat → Pattern}

theorem sum_blocks (count size : Nat) (f : Nat → Nat) :
    ∑ owner ∈ Finset.range (count * size), f owner =
      ∑ index ∈ Finset.range count, ∑ rank ∈ Finset.range size, f (index * size + rank) := by
  induction count with
  | zero => simp
  | succ count ih => rw [Nat.succ_mul, Finset.sum_range_add, ih, Finset.sum_range_succ]

/-- Copies of schedules that have the same tally have it together as often as there are copies. -/
theorem Copies.tally_eq {single : Nat → Except Failure Schedule}
    {grouped : Except Failure Schedule} (h : Copies count size single grouped) {s : Schedule}
    (hs : grouped = .ok s) {tally : Tally}
    (hsingle : ∀ index < count, ∀ one, single index = .ok one →
      one.rankCount = size ∧ one.tally = tally) :
    s.tally = tally.times count := by
  have hblock : ∀ index ∈ Finset.range count,
      (∑ rank ∈ Finset.range size, (s.opsAt (index * size + rank)).length = tally.ops) ∧
      ∑ rank ∈ Finset.range size,
        ((s.opsAt (index * size + rank)).map (·.requires.length)).sum = tally.edges := by
    intro index hindex
    rw [Finset.mem_range] at hindex
    obtain ⟨one, hone, hops⟩ := h.ops s hs index hindex
    obtain ⟨hranks, rfl⟩ := hsingle index hindex one hone
    rw [Schedule.tally_eq_sums, hranks]
    constructor
    · apply Finset.sum_congr rfl
      intro rank hrank
      rw [hops rank (Finset.mem_range.1 hrank), List.length_map]
    · apply Finset.sum_congr rfl
      intro rank hrank
      rw [hops rank (Finset.mem_range.1 hrank), List.map_map]
      simp [Op.shift, Function.comp_def]
  rw [Schedule.tally_eq_sums, h.rankCount_eq s hs, sum_blocks, sum_blocks, Tally.times]
  congr 1
  · rw [Finset.sum_const_nat fun index hindex => (hblock index hindex).1, Finset.card_range]
  · rw [Finset.sum_const_nat fun index hindex => (hblock index hindex).2, Finset.card_range]

theorem tally_eq (hcount : 0 < count) (hsize : 0 < size)
    (hcoherent : ∀ index, (pattern index).Coherent)
    (halike : ∀ index < count, ∀ error,
      pattern index size = .error error ↔ pattern 0 size = .error error)
    {s : Schedule} (hs : schedule count size pattern = .ok s) {tally : Tally}
    (hplans : ∀ index < count, ∀ plans, pattern index size = .ok plans →
      (Schedule.onWorld size plans).tally = tally) :
    s.tally = tally.times count := by
  refine (copies_of_coherent hcount hsize hcoherent halike).tally_eq hs ?_
  intro index hindex one hone
  obtain ⟨-, plans, hpattern, rfl⟩ := Pattern.exists_plans (hcoherent index size) hone
  exact ⟨Schedule.rankCount_onWorld size plans, hplans index hindex plans hpattern⟩

end Groups

/-- The steps of an allreduce in each of its phases. -/
def Allreduce.Algorithm.steps (algorithm : Algorithm) (size ranks : Nat) : Nat :=
  match algorithm.forSize size with
  | .recursiveDoubling => ranks.log2
  | .ring | .bySize => ranks - 1

theorem Allreduce.tally_eq {algorithm : Algorithm} {r : Reduction} {ranks : Nat}
    {plans : Nat → RankPlan} (h : pattern algorithm r ranks = .ok plans) :
    (Schedule.onWorld ranks plans).tally =
      .allreduce ranks (algorithm.steps r.size ranks) r.cost := by
  rw [pattern] at h
  rw [Algorithm.steps]
  cases hfor : algorithm.forSize r.size with
  | recursiveDoubling =>
    rw [hfor] at h
    obtain ⟨k, secondTag, rfl, -, rfl⟩ := Butterfly.exists_secondTag h
    rw [(Butterfly.chainedPlans r secondTag k).tally_eq (length_twoPhases ..), Nat.log2_two_pow]
  | ring | bySize =>
    rw [hfor] at h
    obtain ⟨secondTag, -, rfl⟩ := Ring.exists_secondTag h
    exact (Ring.chainedPlans r secondTag ranks).tally_eq (length_twoPhases ..)

def Alltoall.Algorithm.tally (ranks window : Nat) : Algorithm → Tally
  | windowed => .windowed ranks window
  | balanced | unbalanced => .parallel ranks

theorem Alltoall.tally_eq {algorithm : Algorithm} {request : Request} {sizes : List (List Nat)}
    {ranks : Nat} {plans : Nat → RankPlan} (h : pattern algorithm request sizes ranks = .ok plans) :
    (Schedule.onWorld ranks plans).tally = algorithm.tally ranks request.window := by
  cases algorithm with
  | windowed =>
    obtain ⟨hwindow, rfl⟩ := plans_windowed h
    exact tally_windowed hwindow
  | balanced =>
    cases h
    exact tally_parallel
  | unbalanced =>
    obtain rfl := plans_unbalanced h
    exact tally_parallel

namespace Spec

def reductionTally (spec : Spec) : Except Error Tally :=
  spec.allreduceAlgorithm.map fun algorithm =>
    .allreduce spec.commSize (algorithm.steps spec.datasize spec.commSize) spec.computeTime

def exchangeTally (spec : Spec) : Except Error Tally :=
  spec.alltoallAlgorithm.map (·.tally spec.commSize spec.windowSize)

/-- What a description announces: the operations and the edges of its schedule, unless a name is not
known. -/
def tally (spec : Spec) : Except Error Tally := do
  match ← Family.parse spec.collective with
  | .binomialTree => return .tree spec.commSize
  | .dissemination => return .dissemination spec.commSize
  | .allreduce => spec.reductionTally
  | .alltoall => spec.exchangeTally
  | .multiAllreduce => spec.reductionTally.map (·.times spec.groupCount)
  | .multiAlltoall => spec.exchangeTally.map (·.times spec.groupCount)

theorem exists_of_named {α : Type} {name : Except Error α} {next : α → Except Failure Schedule}
    {s : Schedule} (h : named name next = .ok s) : ∃ a, name = .ok a ∧ next a = .ok s := by
  cases name with
  | ok a => exact ⟨a, rfl, h⟩
  | error error => cases h

/-- Whatever is built from a description has as many operations and edges as it announces. -/
theorem built_tallies {spec : Spec} {entropy : Random.Words} {s : Schedule}
    (h : spec.build entropy = .ok s) : spec.tally = .ok s.tally := by
  obtain ⟨family, hfamily, h⟩ := exists_of_named h
  by_cases hempty : spec.commSize = 0 ∨ (family.isGrouped ∧ spec.groupCount = 0)
  · rw [if_pos hempty] at h
    cases h
  rw [if_neg hempty] at h
  rw [tally, hfamily]
  have hranks : 0 < spec.commSize := Nat.pos_of_ne_zero fun hzero => hempty (Or.inl hzero)
  cases family with
  | binomialTree =>
    obtain ⟨direction, -, h⟩ := exists_of_named h
    rw [Binomial.schedule_eq _ _ _ hranks] at h
    cases h
    exact congrArg Except.ok (Binomial.tally_built _ _ direction hranks).symm
  | dissemination =>
    rw [Dissemination.schedule_eq _ _ hranks] at h
    cases h
    exact congrArg Except.ok (Dissemination.tally_built ..).symm
  | allreduce =>
    obtain ⟨algorithm, halgorithm, h⟩ := exists_of_named h
    obtain ⟨-, plans, hplans, rfl⟩ :=
      Pattern.exists_plans (Builder.coherent_allreduce algorithm spec.reduction _) h
    rw [Allreduce.tally_eq hplans]
    simp [reductionTally, halgorithm, bind, Except.bind, Except.map, reduction]
  | alltoall =>
    obtain ⟨algorithm, halgorithm, h⟩ := exists_of_named h
    obtain ⟨-, plans, hplans, rfl⟩ :=
      Pattern.exists_plans (Builder.coherent_alltoall algorithm spec.request _ _) h
    rw [Alltoall.tally_eq hplans]
    simp [exchangeTally, halgorithm, bind, Except.bind, Except.map, request]
  | multiAllreduce =>
    obtain ⟨algorithm, halgorithm, h⟩ := exists_of_named h
    have hgroups : 0 < spec.groupCount :=
      Nat.pos_of_ne_zero fun hzero => hempty (Or.inr ⟨rfl, hzero⟩)
    rw [Groups.tally_eq hgroups hranks (fun _ => Builder.coherent_allreduce algorithm _)
      (fun _ _ _ => Iff.rfl) h fun _ _ _ => Allreduce.tally_eq]
    simp [reductionTally, halgorithm, bind, Except.bind, Except.map, reduction]
  | multiAlltoall =>
    obtain ⟨algorithm, halgorithm, h⟩ := exists_of_named h
    have hgroups : 0 < spec.groupCount :=
      Nat.pos_of_ne_zero fun hzero => hempty (Or.inr ⟨rfl, hzero⟩)
    rw [Groups.tally_eq hgroups hranks (fun _ => Builder.coherent_alltoall algorithm _ _)
      (fun _ hindex _ => Alltoall.pattern_drawn_alike _ _ _ _ hindex) h
      fun _ _ _ => Alltoall.tally_eq]
    simp [exchangeTally, halgorithm, bind, Except.bind, Except.map, request]

/-- Two rings of three ranks with computations, and a tree of eleven ranks. -/
theorem built_tallies_two :
    let words : Random.Words := fun _ => 0
    let rings : Spec :=
      { collective := "multi_allreduce", algorithm := some "Ring", commSize := 3, datasize := 8,
        groupCount := 2, computeTime := 5 }
    let eleven : Spec := { collective := "binomial-tree", commSize := 11, datasize := 8 }
    (∃ s, rings.build words = .ok s ∧ s.tally = ⟨72, 60⟩) ∧
      ∃ s, eleven.build words = .ok s ∧ s.tally = ⟨20, 6⟩ := by
  intro words rings eleven
  constructor
  · have hfamily : Family.parse rings.collective = .ok .multiAllreduce := by decide
    have halgorithm : rings.allreduceAlgorithm = .ok .ring := by decide
    obtain ⟨s, hs, -⟩ := (Groups.yields_allreduce (show 0 < 2 by decide)
      (show 0 < 3 by decide) .ring rings.reduction).built _ rfl
    have hbuilt : rings.build words = .ok s := by
      rw [build, hfamily, named_ok, if_neg (by decide), halgorithm]
      exact hs
    have htally : rings.tally = .ok ⟨72, 60⟩ := by decide
    exact ⟨s, hbuilt, Except.ok.inj ((built_tallies hbuilt).symm.trans htally)⟩
  · have hfamily : Family.parse eleven.collective = .ok .binomialTree := by decide
    have hdirection : eleven.treeDirection = .ok .reduce := by decide
    have hbuilt : eleven.build words = .ok (Binomial.built 8 0 .reduce 11) := by
      rw [build, hfamily, named_ok, if_neg (by decide), hdirection]
      exact Binomial.schedule_eq 8 0 .reduce (by decide)
    have htally : eleven.tally = .ok ⟨20, 6⟩ := by
      have hdoublings : Nat.clog 2 11 = 4 := by
        rw [← doublings_eq_clog]
        decide
      rw [tally, hfamily]
      change Except.ok (Tally.tree 11) = _
      rw [Tally.tree, hdoublings]
    exact ⟨_, hbuilt, Except.ok.inj ((built_tallies hbuilt).symm.trans htally)⟩

end Spec
end Collectives
