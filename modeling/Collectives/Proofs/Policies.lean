import Collectives.Proofs.Edits
import Collectives.Proofs.Handles
import Collectives.Proofs.Windows

/-!
# Policies compared

The three policies create the same operations in the same order and differ in the dependencies only.
With a window that all pairs fit in there are none. With a window of one pair every pair waits for
both halves of the one before, and the chain is what is left when sends are no longer waited for.
-/

namespace Collectives

namespace RankPlan

/-- A window that all pairs fit in never makes a pair wait. -/
theorem windowed_eq_parallel {window : Nat} {pairs : List Pair} (h : pairs.length ≤ window) :
    windowed window pairs = parallel pairs := by
  rw [windowed, parallel]
  apply List.ext_getElem (by simp)
  intro k hk _
  have hlt : k < window := by
    rw [List.length_map, List.length_zipIdx] at hk
    exact hk.trans_le h
  simp [hlt]

end RankPlan

namespace Schedule

/-- Whether there is a send of this name. -/
def isSend (s : Schedule) (id : OpId) : Bool := (s.op? id).any (·.action.isSend)

end Schedule

namespace Exchange

open Build

variable {c : Communicator} {s : Schedule} {ex : Exchange}

theorem runOn_windowed_wide {window : Nat} (hwindow : window ≠ 0)
    (hwide : ∀ pairs, ex.pairs c.size = .ok pairs → pairs.length ≤ window) :
    (windowed c ex window).runOn s = (parallel c ex).runOn s := by
  cases hpairs : ex.pairs c.size with
  | error error => rw [runOn_windowed_refused hpairs hwindow, runOn_parallel_refused hpairs]
  | ok pairs =>
    have hplan := RankPlan.windowed_eq_parallel (hwide pairs hpairs)
    simp [windowed, parallel, runOn_bind, hwindow, hpairs, hplan]

/-- Cutting all dependencies of new pairs leaves the pairs as they are created. -/
theorem withoutAdded_windowed (howner : c.member ex.rank < s.rankCount) (window : Nat)
    (pairs : List Pair) :
    s.withoutAdded (s.grow (c.member ex.rank) ((RankPlan.windowed window pairs).opsOn c
        (c.member ex.rank) (s.opsAt (c.member ex.rank)).length)) (fun _ => true) =
      s.grow (c.member ex.rank) ((RankPlan.parallel pairs).opsOn c (c.member ex.rank)
        (s.opsAt (c.member ex.rank)).length) := by
  rw [Schedule.withoutAdded,
    Schedule.mapOps_grow howner fun _ _ hop => Schedule.cut_eq_self (fun _ => true) hop]
  congr 1
  rw [RankPlan.opsOn, RankPlan.opsOn, RankPlan.flatten_windowed, RankPlan.flatten_parallel]
  refine mapIdx_pairOps fun k hk half hhalf action => ?_
  simp only [Schedule.requiresOf_of_le, Planned.action_place, List.not_mem_nil, decide_false,
    Bool.not_true, Bool.or_self, List.filter_false]
  rfl

theorem windowWaits_one (k : Nat) :
    RankPlan.windowWaits 1 k = if k = 0 then [] else RankPlan.halves (k - 1) := by
  by_cases hk : k = 0
  · rw [RankPlan.windowWaits, if_pos (by omega), if_pos hk]
  · rw [RankPlan.windowWaits, if_neg (by omega), if_neg hk]

/-- Behind a window of one pair, the sends among what is waited for are the sends of the pairs. -/
theorem withoutAdded_windowed_one (hinside : c.Inside s) (h : ex.Valid c.size) {made : Schedule}
    (hmade : made = s.grow (c.member ex.rank) ((RankPlan.windowed 1 ex.listed).opsOn c
      (c.member ex.rank) (s.opsAt (c.member ex.rank)).length)) :
    s.withoutAdded made made.isSend =
      s.grow (c.member ex.rank) ((RankPlan.chained 0 0 none ex.listed).opsOn c (c.member ex.rank)
        (s.opsAt (c.member ex.rank)).length) := by
  have howner := hinside _ (c.member_mem h.rank_lt)
  obtain ⟨last, made', hrun, hwindowed⟩ := windowed_made hinside h Nat.one_ne_zero
  obtain rfl : made' = made := by
    rw [runOn_windowed hinside h (by decide), ← hmade] at hrun
    exact (Prod.mk.inj hrun).2.symm
  rw [Schedule.withoutAdded, hmade,
    Schedule.mapOps_grow howner fun _ _ hop => Schedule.cut_eq_self _ hop, ← hmade]
  congr 1
  rw [RankPlan.opsOn, RankPlan.opsOn, RankPlan.flatten_windowed, RankPlan.flatten_chained]
  refine mapIdx_pairOps fun k hk half hhalf action => ?_
  rw [windowWaits_one, RankPlan.chainWaits]
  by_cases hfirst : k = 0
  · rw [if_pos hfirst, if_pos hfirst]
    rfl
  · have hbefore : k - 1 < ex.listed.length := by omega
    have hpair : ex.listed[k - 1]? = some ex.listed[k - 1] := List.getElem?_eq_getElem hbefore
    have hsend := hwindowed.send (k - 1) _ hpair
    have hrecv := hwindowed.recv (k - 1) _ hpair
    have hcut : made'.isSend ⟨c.member ex.rank,
        (s.opsAt (c.member ex.rank)).length + 2 * (k - 1)⟩ = true := by
      rw [Schedule.isSend, hsend]
      rfl
    have hkept : made'.isSend ⟨c.member ex.rank,
        (s.opsAt (c.member ex.rank)).length + (2 * (k - 1) + 1)⟩ = false := by
      rw [Schedule.isSend, ← Nat.add_assoc, hrecv]
      rfl
    have hlast : stride 0 * k - 1 = 2 * (k - 1) + 1 := by
      rw [show stride 0 = 2 from rfl]
      omega
    rw [if_neg hfirst, if_neg hfirst, hlast]
    simp [Schedule.requiresOf_of_le, Planned.place, RankPlan.halves, Wait.resolve, Op.waitFor,
      hcut, hkept]

/-- A window of any size leaves the pairs of a parallel exchange, with more dependencies. -/
theorem cut_windowed (hinside : c.Inside s) {window : Nat} (hwindow : window ≠ 0) :
    ((windowed c ex window).runOn s).1 = ((parallel c ex).runOn s).1 ∧
      s.withoutAdded ((windowed c ex window).runOn s).2 (fun _ => true) =
        ((parallel c ex).runOn s).2 := by
  cases hpairs : ex.pairs c.size with
  | error error =>
    rw [runOn_windowed_refused hpairs hwindow, runOn_parallel_refused hpairs,
      Schedule.withoutAdded_self]
    exact ⟨rfl, rfl⟩
  | ok pairs =>
    have h : ex.Valid c.size := valid_iff.2 ⟨pairs, hpairs⟩
    rw [runOn_windowed hinside h hwindow, runOn_parallel hinside h,
      RankPlan.length_flatten_windowed, RankPlan.length_flatten_parallel,
      withoutAdded_windowed (hinside _ (c.member_mem h.rank_lt))]
    exact ⟨rfl, rfl⟩

/-- A window of one pair leaves a chain when the sends are no longer waited for. -/
theorem cut_windowed_one (hinside : c.Inside s) :
    ((windowed c ex 1).runOn s).1 = ((sequential c ex none 0).runOn s).1 ∧
      s.withoutAdded ((windowed c ex 1).runOn s).2 ((windowed c ex 1).runOn s).2.isSend =
        ((sequential c ex none 0).runOn s).2 := by
  cases hpairs : ex.pairs c.size with
  | error error =>
    rw [runOn_windowed_refused hpairs Nat.one_ne_zero, runOn_sequential_refused hpairs,
      Schedule.withoutAdded_self]
    exact ⟨rfl, rfl⟩
  | ok pairs =>
    have h : ex.Valid c.size := valid_iff.2 ⟨pairs, hpairs⟩
    rw [runOn_windowed hinside h Nat.one_ne_zero, runOn_sequential_none hinside h,
      RankPlan.length_flatten_windowed, withoutAdded_windowed_one hinside h rfl]
    exact ⟨rfl, rfl⟩

end Exchange

namespace Alltoall

variable {c : Communicator} {s : Schedule} {size rank : Nat}

theorem entry_constant (hrank : rank < c.size) {peer : Nat} (hpeer : peer < c.size) :
    entry (.replicate c.size (.replicate c.size size)) rank peer = size := by
  simp [entry, hrank, hpeer]

/-- The pairs of a rank are the same with uniform sizes and with those of a constant matrix. -/
theorem pairs_constant (hrank : rank < c.size) (tag : Tag) :
    pairs (entry (.replicate c.size (.replicate c.size size))) tag c.size rank =
      pairs (fun _ _ => size) tag c.size rank := by
  have hpos : 0 < c.size := Nat.zero_lt_of_lt hrank
  rw [pairs, pairs]
  apply List.map_congr_left
  rintro ⟨source, destination⟩ hmem
  obtain ⟨hsource, hdestination⟩ := List.of_mem_zip hmem
  obtain ⟨offset, -, rfl⟩ := List.mem_map.1 hsource
  obtain ⟨ahead, -, rfl⟩ := List.mem_map.1 hdestination
  simp only [entry_constant (Nat.mod_lt _ hpos) hrank, entry_constant hrank (Nat.mod_lt _ hpos)]

theorem unbalanced_constant (request : Request) (ranks : Nat) :
    unbalanced request (.replicate ranks (.replicate ranks size)) ranks =
      .ok fun rank => .parallel
        (pairs (entry (.replicate ranks (.replicate ranks size))) request.tag ranks rank) := by
  have hrows : (List.replicate ranks (List.replicate ranks size)).find? (·.length ≠ ranks) =
      none := by
    rw [List.find?_eq_none]
    intro row hrow
    simp [(List.mem_replicate.1 hrow).2]
  simp only [unbalanced, List.length_replicate, ne_eq, not_true_eq_false, if_false]
  simp only [ne_eq] at hrows
  rw [hrows]

theorem windowed_wide {window : Nat} (hwindow : window ≠ 0) {ranks : Nat}
    (hwide : ranks - 1 ≤ window) (size other : Nat) (tag : Tag) :
    windowed ⟨size, tag, window⟩ ranks = balanced ⟨size, tag, other⟩ ranks := by
  rw [windowed, if_neg hwindow, balanced]
  congr 1
  funext rank
  exact RankPlan.windowed_eq_parallel (by rwa [length_pairs])

/-- With a window for all peers, and with a constant matrix, an all-to-all is the balanced one. -/
theorem runOn_alike (hinside : c.Inside s) {window : Nat} (hwindow : window ≠ 0)
    (hwide : c.size - 1 ≤ window) (size other another : Nat) (tag : Tag) :
    ∃ made, (Build.run c (windowed ⟨size, tag, window⟩)).runOn s = (.ok (), made) ∧
      (Build.run c (balanced ⟨size, tag, other⟩)).runOn s = (.ok (), made) ∧
      (Build.run c (unbalanced ⟨another, tag, other⟩
        (.replicate c.size (.replicate c.size size)))).runOn s = (.ok (), made) := by
  have hplaced : s.placed c (fun rank => .parallel
        (pairs (entry (.replicate c.size (.replicate c.size size))) tag c.size rank)) =
      s.placed c fun rank => .parallel (pairs (fun _ _ => size) tag c.size rank) := by
    apply List.foldl_ext
    intro t rank hrank
    rw [Schedule.host, Schedule.host, pairs_constant (List.mem_range.1 hrank)]
  refine ⟨s.placed c fun rank => .parallel (pairs (fun _ _ => size) tag c.size rank), ?_, ?_, ?_⟩
  · rw [(coherent_windowed _).runOn_run hinside, Pattern.outcome,
      windowed_wide hwindow hwide size other tag]
    rfl
  · rw [(coherent_balanced _).runOn_run hinside, Pattern.outcome]
    rfl
  · rw [(coherent_unbalanced _ _).runOn_run hinside, Pattern.outcome, unbalanced_constant]
    exact congrArg (Prod.mk _) hplaced

end Alltoall

namespace Exchange

open Build

variable {c : Communicator} {s : Schedule}

/-- With a window that all pairs fit in, a windowed exchange is the parallel one. Without the
dependencies it added, every windowed exchange is the parallel one; without those on sends, the one
with a window of a single pair is the sequential one. So an all-to-all is the same with a window for
all peers, without a window, and with the sizes of a constant matrix. -/
theorem policies_agree (hinside : c.Inside s) (ex : Exchange) {window : Nat}
    (hwindow : window ≠ 0) :
    ((sequentialLoop c ex none 0).runOn s = (sequential c ex none 0).runOn s ∧
      (parallelLoop c ex).runOn s = (parallel c ex).runOn s ∧
      (windowedLoop c ex window).runOn s = (windowed c ex window).runOn s) ∧
    ((∀ pairs, ex.pairs c.size = .ok pairs → pairs.length ≤ window) →
      (windowed c ex window).runOn s = (parallel c ex).runOn s) ∧
    (((windowed c ex window).runOn s).1 = ((parallel c ex).runOn s).1 ∧
      s.withoutAdded ((windowed c ex window).runOn s).2 (fun _ => true) =
        ((parallel c ex).runOn s).2) ∧
    (((windowed c ex 1).runOn s).1 = ((sequential c ex none 0).runOn s).1 ∧
      s.withoutAdded ((windowed c ex 1).runOn s).2 ((windowed c ex 1).runOn s).2.isSend =
        ((sequential c ex none 0).runOn s).2) ∧
    ∀ size other another tag, c.size - 1 ≤ window →
      ∃ made, (Build.run c (Alltoall.windowed ⟨size, tag, window⟩)).runOn s = (.ok (), made) ∧
        (Build.run c (Alltoall.balanced ⟨size, tag, other⟩)).runOn s = (.ok (), made) ∧
        (Build.run c (Alltoall.unbalanced ⟨another, tag, other⟩
          (.replicate c.size (.replicate c.size size)))).runOn s = (.ok (), made) := by
  refine ⟨⟨(runs_sequential hinside ex none 0).2, runOn_parallelLoop hinside,
      runOn_windowedLoop hinside window⟩, runOn_windowed_wide hwindow,
    cut_windowed hinside hwindow, cut_windowed_one hinside, ?_⟩
  intro size other another tag hwide
  exact Alltoall.runOn_alike hinside hwindow hwide size other another tag

theorem policies_agree_three :
    (Communicator.world 3).Inside (.idle 3) ∧ 2 ≠ 0 ∧
      (windowed (.world 3) ⟨0, [2, 1], [1, 2], [8, 9], [8, 9], 1⟩ 2).runOn (.idle 3) =
        (parallel (.world 3) ⟨0, [2, 1], [1, 2], [8, 9], [8, 9], 1⟩).runOn (.idle 3) ∧
      ∃ made,
        (Build.run (.world 3) (Alltoall.windowed ⟨8, 1, 2⟩)).runOn (.idle 3) = (.ok (), made) ∧
        (Build.run (.world 3) (Alltoall.balanced ⟨8, 1, 0⟩)).runOn (.idle 3) = (.ok (), made) := by
  have hinside := Communicator.inside_world 3
  have hagree := policies_agree hinside ⟨0, [2, 1], [1, 2], [8, 9], [8, 9], 1⟩ two_ne_zero
  have hwide : ∀ pairs, (Exchange.mk 0 [2, 1] [1, 2] [8, 9] [8, 9] 1).pairs 3 = .ok pairs →
      pairs.length ≤ 2 := by
    rintro pairs hpairs
    rw [← Except.ok.inj hpairs]
    decide
  obtain ⟨made, hwindowed, hbalanced, -⟩ := hagree.2.2.2.2 8 0 8 1 (by decide)
  exact ⟨hinside, two_ne_zero, hagree.2.1 hwide, made, hwindowed, hbalanced⟩

end Exchange
end Collectives
