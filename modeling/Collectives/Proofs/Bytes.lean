import Collectives.Proofs.ButterflySums
import Collectives.Proofs.RingSums
import Collectives.Proofs.TreeShape
import Mathlib.Order.Bounds.Basic

/-!
# The bytes of an allreduce

Recursive doubling truncates at every halving, so each one bit that it shifts out is a byte that no
message carries. A ring rounds its chunks up, so all of them together are the data and less than one
byte for each rank on top.
-/

namespace Collectives

namespace Action

/-- The size of what is sent under `tag`, to any peer. -/
def sentUnder? (tag : Tag) : Action → Option Nat
  | .send _ size label => if label = tag then some size else none
  | _ => none

def receivedUnder? (tag : Tag) : Action → Option Nat
  | .recv _ size label => if label = tag then some size else none
  | _ => none

@[simp] theorem sentUnder?_mapPeer (tag : Tag) (f : Nat → Nat) (action : Action) :
    (action.mapPeer f).sentUnder? tag = action.sentUnder? tag := by
  cases action <;> rfl

@[simp] theorem receivedUnder?_mapPeer (tag : Tag) (f : Nat → Nat) (action : Action) :
    (action.mapPeer f).receivedUnder? tag = action.receivedUnder? tag := by
  cases action <;> rfl

end Action

namespace Schedule

/-- The sizes of what a rank sends under a tag, in order. -/
def sentSizes (s : Schedule) (rank : Nat) (tag : Tag) : List Nat :=
  (s.opsAt rank).filterMap fun op => op.action.sentUnder? tag

def receivedSizes (s : Schedule) (rank : Nat) (tag : Tag) : List Nat :=
  (s.opsAt rank).filterMap fun op => op.action.receivedUnder? tag

end Schedule

/-- A selection among the operations of pairs is one among the pairs. -/
theorem filterMap_pairOps {cost : Nat} {sendWaits recvWaits : Nat → List Wait}
    {size? : Action → Option Nat} {choose : Pair → Option Nat}
    (hcalc : ∀ cost, size? (.calc cost) = none)
    (hpair : ∀ pair : Pair,
      (size? (.send pair.destination pair.sendSize pair.tag) = choose pair ∧
        size? (.recv pair.source pair.recvSize pair.tag) = none) ∨
      (size? (.send pair.destination pair.sendSize pair.tag) = none ∧
        size? (.recv pair.source pair.recvSize pair.tag) = choose pair))
    (first : Nat) (pairs : List Pair) :
    (pairOps cost sendWaits recvWaits first pairs).filterMap (fun planned => size? planned.action) =
      pairs.filterMap choose := by
  induction pairs generalizing first with
  | nil => rfl
  | cons pair pairs ih =>
    have htail : (if cost = 0 then [] else
        [(⟨.calc cost, [.own (3 * first + 1)]⟩ : Planned)]).filterMap
          (fun planned => size? planned.action) = [] := by
      split <;> simp [hcalc]
    rw [pairOps, List.filterMap_append, ih, pairBlock]
    rcases hpair pair with ⟨hs, hr⟩ | ⟨hs, hr⟩ <;> cases hc : choose pair <;>
      simp [hs, hr, hc, htail]

namespace PairedPlans

variable {ranks cost : Nat} {sendWaits recvWaits : Nat → List Wait} {pairsOf : Nat → List Pair}
  {plans : Nat → RankPlan} {rank : Nat}

theorem sentSizes_eq (h : PairedPlans ranks cost sendWaits recvWaits pairsOf plans)
    (hrank : rank < ranks) (tag : Tag) :
    (Schedule.onWorld ranks plans).sentSizes rank tag =
      (pairsOf rank).filterMap fun pair => if pair.tag = tag then some pair.sendSize else none := by
  rw [Schedule.sentSizes, Schedule.opsAt_onWorld plans hrank, RankPlan.opsOn, List.filterMap_map,
    h.flatten]
  simp only [Function.comp_def, Planned.action_place, Action.sentUnder?_mapPeer]
  exact filterMap_pairOps (fun _ => rfl) (fun _ => Or.inl ⟨rfl, rfl⟩) 0 (pairsOf rank)

theorem receivedSizes_eq (h : PairedPlans ranks cost sendWaits recvWaits pairsOf plans)
    (hrank : rank < ranks) (tag : Tag) :
    (Schedule.onWorld ranks plans).receivedSizes rank tag =
      (pairsOf rank).filterMap fun pair => if pair.tag = tag then some pair.recvSize else none := by
  rw [Schedule.receivedSizes, Schedule.opsAt_onWorld plans hrank, RankPlan.opsOn,
    List.filterMap_map, h.flatten]
  simp only [Function.comp_def, Planned.action_place, Action.receivedUnder?_mapPeer]
  exact filterMap_pairOps (fun _ => rfl) (fun _ => Or.inr ⟨rfl, rfl⟩) 0 (pairsOf rank)

end PairedPlans

namespace Butterfly

/-- Halving once more loses the byte of the bit that is shifted out, if that is a one. -/
theorem double_shiftRight (size k : Nat) :
    2 * (size >>> (k + 1)) + (size % 2 ^ (k + 1)).bitIndices.length =
      size >>> k + (size % 2 ^ k).bitIndices.length := by
  rw [Nat.shiftRight_succ, Nat.shiftRight_eq_div_pow, Nat.mod_pow_succ]
  have hlow := Nat.mod_lt size (Nat.two_pow_pos k)
  generalize size / 2 ^ k = high, size % 2 ^ k = low at hlow ⊢
  -- The lowest bit of `high` is shifted out, and it joins `low` as its highest.
  rcases Nat.mod_two_eq_zero_or_one high with hbit | hbit
  · rw [hbit, Nat.mul_zero, Nat.add_zero]
    omega
  · have hpos := Nat.two_pow_pos k
    have hne : low + 2 ^ k ≠ 0 := by omega
    have hlog : (low + 2 ^ k).log2 = k := by
      rw [Nat.log2_eq_iff hne, Nat.pow_succ]
      omega
    have hones := Binomial.length_bitIndices hne
    rw [hlog, Nat.add_sub_cancel] at hones
    rw [hbit, Nat.mul_one, hones]
    omega

/-- With what is left after `k` halvings, the halves are all of the data but one byte for every one
among its lowest `k` bits. -/
theorem sum_halves (size k : Nat) :
    ((List.range k).map fun bit => size >>> (bit + 1)).sum + size >>> k +
      (size % 2 ^ k).bitIndices.length = size := by
  induction k with
  | zero => simp [Nat.mod_one]
  | succ k ih =>
    have hdouble := double_shiftRight size k
    rw [List.sum_range_succ]
    omega

theorem length_bitIndices_eq_zero {n : Nat} : n.bitIndices.length = 0 ↔ n = 0 := by
  constructor
  · intro h
    by_contra hne
    rw [Binomial.length_bitIndices hne] at h
    cases h
  · rintro rfl
    rw [Nat.bitIndices_zero, List.length_nil]

/-- Under each of its tags a rank sends and receives all the halves once. -/
theorem sizes_eq (r : Reduction) {secondTag : Tag} (hne : r.tag ≠ secondTag) (k : Nat) {rank : Nat}
    (hrank : rank < 2 ^ k) {tag : Tag} (htag : tag ∈ [r.tag, secondTag]) :
    let s := Schedule.onWorld (2 ^ k) (plan r secondTag (2 ^ k))
    (s.sentSizes rank tag).Perm ((List.range k).map fun bit => r.size >>> (bit + 1)) ∧
      s.receivedSizes rank tag = s.sentSizes rank tag := by
  have hpaired := (chainedPlans r secondTag k).paired
  simp only [hpaired.sentSizes_eq hrank, hpaired.receivedSizes_eq hrank, Pair.flips,
    List.filterMap_map, Function.comp_def, and_true]
  rw [steps, List.filterMap_append, List.filterMap_reverse, List.filterMap_map, List.filterMap_map]
  rcases List.mem_pair.1 htag with rfl | rfl
  · simp [hne.symm]
  · simp [hne, List.reverse_perm]

theorem schedule_eq {r : Reduction} (htag : r.tag < Tag.last) (k : Nat) :
    (allreduce r).schedule (2 ^ k) = .ok (.onWorld (2 ^ k) (plan r (r.tag + 1) (2 ^ k))) := by
  refine Pattern.schedule_eq (Nat.two_pow_pos k) ?_ (coherent_plan r (r.tag + 1) k)
  rw [allreduce_eq, if_pos (isPowerOfTwo_iff.2 ⟨k, rfl⟩), r.secondTag_eq htag]
  rfl

end Butterfly

namespace Ring

theorem chunk_le_iff {size ranks bytes : Nat} (hranks : 0 < ranks) :
    chunk size ranks ≤ bytes ↔ size ≤ ranks * bytes := by
  rw [chunk]
  split
  case isTrue hone =>
    obtain rfl : ranks = 1 := by omega
    rw [Nat.one_mul]
  case isFalse =>
    rw [← Nat.lt_succ_iff, Nat.div_lt_iff_lt_mul hranks, Nat.succ_mul, Nat.mul_comm]
    omega

/-- All chunks together are the least that the ranks divide evenly and that holds the data. -/
theorem isLeast_chunks {size ranks : Nat} (hranks : 0 < ranks) :
    IsLeast {bytes | ranks ∣ bytes ∧ size ≤ bytes} (ranks * chunk size ranks) := by
  refine ⟨⟨Nat.dvd_mul_right _ _, (chunk_le_iff hranks).1 (Nat.le_refl _)⟩, ?_⟩
  rintro bytes ⟨⟨share, rfl⟩, hbytes⟩
  exact Nat.mul_le_mul_left ranks ((chunk_le_iff hranks).2 hbytes)

theorem chunks_lt {size ranks : Nat} (hranks : 0 < ranks) :
    ranks * chunk size ranks < size + ranks := by
  rcases Nat.eq_zero_or_pos (chunk size ranks) with hzero | hpos
  · rw [hzero]
    omega
  · obtain ⟨less, hless⟩ := Nat.exists_eq_add_of_le' hpos
    have hmore : ¬chunk size ranks ≤ less := by omega
    rw [chunk_le_iff hranks] at hmore
    rw [hless, Nat.mul_succ]
    omega

theorem sizes_eq (r : Reduction) {secondTag : Tag} (hne : r.tag ≠ secondTag) {ranks rank : Nat}
    (hrank : rank < ranks) {tag : Tag} (htag : tag ∈ [r.tag, secondTag]) :
    let s := Schedule.onWorld ranks (plan r secondTag ranks)
    s.sentSizes rank tag = .replicate (ranks - 1) (chunk r.size ranks) ∧
      s.receivedSizes rank tag = .replicate (ranks - 1) (chunk r.size ranks) := by
  have hpaired := (chainedPlans r secondTag ranks).paired
  simp only [hpaired.sentSizes_eq hrank, hpaired.receivedSizes_eq hrank, pairs, Pair.shifts,
    List.filterMap_map, Function.comp_def, and_self]
  rw [steps, List.filterMap_append]
  rcases List.mem_pair.1 htag with rfl | rfl
  · simp [hne.symm]
  · simp [hne]

theorem schedule_eq {r : Reduction} (htag : r.tag < Tag.last) {ranks : Nat} (hranks : 0 < ranks) :
    (allreduce r).schedule ranks = .ok (.onWorld ranks (plan r (r.tag + 1) ranks)) := by
  refine Pattern.schedule_eq hranks ?_ (coherent_plan r (r.tag + 1) ranks)
  simp [allreduce, r.secondTag_eq htag, bind, Except.bind, pure, Except.pure]

end Ring

namespace Reduction

/-- Each phase has a tag of its own, and in both every rank sends and receives as many bytes. In
recursive doubling, these and the share that stays fall short of the data by a byte for each one
among the bits that were shifted out, so nothing is missing just when the ranks divide the data. In
a ring, they are all chunks but one, and all chunks are the least number of bytes that the ranks
divide and that holds the data. -/
theorem bytes_accounted (r : Reduction) (htag : r.tag < Tag.last) :
    (∀ k, ∃ s total, (Butterfly.allreduce r).schedule (2 ^ k) = .ok s ∧
      (∀ rank < 2 ^ k, ∀ tag ∈ [r.tag, r.tag + 1],
        (s.sentSizes rank tag).sum = total ∧ (s.receivedSizes rank tag).sum = total) ∧
      total + r.size >>> k + (r.size % 2 ^ k).bitIndices.length = r.size ∧
      (total + r.size >>> k = r.size ↔ 2 ^ k ∣ r.size)) ∧
    ∀ ranks > 0, ∃ s, (Ring.allreduce r).schedule ranks = .ok s ∧
      ∀ rank < ranks, ∀ tag ∈ [r.tag, r.tag + 1],
        s.sentSizes rank tag = .replicate (ranks - 1) (Ring.chunk r.size ranks) ∧
        s.receivedSizes rank tag = .replicate (ranks - 1) (Ring.chunk r.size ranks) ∧
        IsLeast {bytes | ranks ∣ bytes ∧ r.size ≤ bytes}
          ((s.sentSizes rank tag).sum + Ring.chunk r.size ranks) ∧
        (s.sentSizes rank tag).sum + Ring.chunk r.size ranks < r.size + ranks := by
  have hne := r.tag_ne_secondTag
  constructor
  · intro k
    have hsum := Butterfly.sum_halves r.size k
    refine ⟨_, _, Butterfly.schedule_eq htag k, ?sizes, hsum, ?missing⟩
    case sizes =>
      intro rank hrank tag htag'
      obtain ⟨hsent, hreceived⟩ := Butterfly.sizes_eq r hne k hrank htag'
      rw [hreceived, hsent.sum_eq]
      exact ⟨rfl, rfl⟩
    case missing =>
      rw [Nat.dvd_iff_mod_eq_zero, ← Butterfly.length_bitIndices_eq_zero]
      omega
  · intro ranks hranks
    refine ⟨_, Ring.schedule_eq htag hranks, ?_⟩
    intro rank hrank tag htag'
    obtain ⟨hsent, hreceived⟩ := Ring.sizes_eq r hne hrank htag'
    have hall : (List.replicate (ranks - 1) (Ring.chunk r.size ranks)).sum +
        Ring.chunk r.size ranks = ranks * Ring.chunk r.size ranks := by
      rw [List.sum_replicate_nat, ← Nat.succ_mul, Nat.succ_eq_add_one, Nat.sub_add_cancel hranks]
    refine ⟨hsent, hreceived, ?_⟩
    rw [hsent, hall]
    exact ⟨Ring.isLeast_chunks hranks, Ring.chunks_lt hranks⟩

/-- Eleven bytes on four ranks: the halves of 5 and 2 bytes and the 2 that stay make 9, since both
bits of 11 that are shifted out are ones. Four chunks of 3 bytes make 12. -/
theorem bytes_accounted_eleven :
    (7 : Tag) < Tag.last ∧
    (∃ s total, (Butterfly.allreduce ⟨11, 7, 0⟩).schedule (2 ^ 2) = .ok s ∧
      (s.sentSizes 1 8).sum = total ∧ total + 2 + 2 = 11) ∧
    ∃ s, (Ring.allreduce ⟨11, 7, 0⟩).schedule 4 = .ok s ∧ s.sentSizes 1 8 = [3, 3, 3] := by
  obtain ⟨hbutterfly, hring⟩ := bytes_accounted ⟨11, 7, 0⟩ (by decide)
  obtain ⟨s, total, hs, hsizes, htotal, -⟩ := hbutterfly 2
  obtain ⟨t, ht, hchunks⟩ := hring 4 (by decide)
  have hones : (11 % 2 ^ 2).bitIndices.length = 2 := by
    rw [show 11 % 2 ^ 2 = 2 * 1 + 1 by rfl, Nat.bitIndices_two_mul_add_one, Nat.bitIndices_one]
    rfl
  rw [hones] at htotal
  exact ⟨by decide, ⟨s, total, hs, (hsizes 1 (by decide) 8 (by decide)).1, htotal⟩, t, ht,
    (hchunks 1 (by decide) 8 (by decide)).1⟩

end Reduction
end Collectives
