import Collectives.Proofs.PairedPlans

/-!
# Complete exchanges

In an all-to-all on a world every rank has one send to and one receive from every other rank, and
nothing else. Where they stand is told by how far the receiver lies ahead of the sender, so the two
ends of a message stand side by side in the lists of their ranks.
-/

namespace Collectives

/-- How far the rank `b` lies ahead of `a` on a circle of `ranks` ranks. -/
def ahead (ranks a b : Nat) : Nat := (b + ranks - a) % ranks

/-- Every rank exchanges one message each way with every other and does nothing else. The message
from `a` to `b`, when `b` lies `h` ahead, is the send at `2 * (h - 1)` of `a` and the receive one
place later of `b`; `size?` tells its size, and `waits` what both operations of a pair require. -/
structure Schedule.Exchanges (s : Schedule) (ranks : Nat) (tag : Tag)
    (size? : Nat → Nat → Option Nat) (waits : (rank pair : Nat) → List OpId) : Prop where
  rankCount_eq : s.rankCount = ranks
  message : ∀ a < ranks, ∀ b < ranks, a ≠ b → ∃ size, size? a b = some size ∧
    s.op? ⟨a, 2 * (ahead ranks a b - 1)⟩ =
      some ⟨.send b size tag, waits a (ahead ranks a b - 1)⟩ ∧
    s.op? ⟨b, 2 * (ahead ranks a b - 1) + 1⟩ =
      some ⟨.recv a size tag, waits b (ahead ranks a b - 1)⟩
  send_once : ∀ a < ranks, ∀ b < ranks, a ≠ b →
    ∃! id : OpId, id.rank = a ∧ ∃ size tag requires, s.op? id = some ⟨.send b size tag, requires⟩
  recv_once : ∀ a < ranks, ∀ b < ranks, a ≠ b →
    ∃! id : OpId, id.rank = b ∧ ∃ size tag requires, s.op? id = some ⟨.recv a size tag, requires⟩
  only : ∀ id op, s.op? id = some op → id.rank < ranks ∧ ∃ peer < ranks, peer ≠ id.rank ∧
    ∃ size, op.action = .send peer size tag ∨ op.action = .recv peer size tag

theorem ahead_cases {ranks a b : Nat} (ha : a < ranks) (hb : b < ranks) (hab : a ≠ b) :
    0 < ahead ranks a b ∧ ahead ranks a b < ranks ∧
      (a + ahead ranks a b = b ∨ a + ahead ranks a b = b + ranks) := by
  have h := mod_cases (show b + ranks - a < 2 * ranks by omega)
  unfold ahead
  omega

namespace Alltoall

variable {sizeOf : Nat → Nat → Nat} {tag : Tag} {ranks rank k : Nat} {pair : Pair}

theorem getElem?_pairs :
    (pairs sizeOf tag ranks rank)[k]? = some pair ↔ k + 1 < ranks ∧
      pair =
        { source := (rank + ranks - (k + 1)) % ranks
          recvSize := sizeOf ((rank + ranks - (k + 1)) % ranks) rank
          destination := (rank + (k + 1)) % ranks
          sendSize := sizeOf rank ((rank + (k + 1)) % ranks)
          tag } := by
  rw [pairs_eq_shifts, Pair.shifts, List.getElem?_map, List.getElem?_map, offsets,
    List.getElem?_map]
  by_cases hk : k + 1 < ranks
  · simp [show k < ranks - 1 by omega, hk, eq_comm]
  · simp [show ranks - 1 ≤ k by omega, hk]

/-- The pair of `a` that sends to `b`. -/
theorem destination_eq_iff {a b : Nat} (ha : a < ranks) (hb : b < ranks) (hab : a ≠ b)
    (hk : k + 1 < ranks) : (a + (k + 1)) % ranks = b ↔ k + 1 = ahead ranks a b := by
  have h := mod_cases (show a + (k + 1) < 2 * ranks by omega)
  have hahead := ahead_cases ha hb hab
  omega

/-- The pair of `b` that receives from `a`. -/
theorem source_eq_iff {a b : Nat} (ha : a < ranks) (hb : b < ranks) (hab : a ≠ b)
    (hk : k + 1 < ranks) : (b + ranks - (k + 1)) % ranks = a ↔ k + 1 = ahead ranks a b := by
  have h := mod_cases (show b + ranks - (k + 1) < 2 * ranks by omega)
  have hahead := ahead_cases ha hb hab
  omega

theorem getElem?_pairs_send (sizeOf : Nat → Nat → Nat) (tag : Tag) {a b : Nat}
    (ha : a < ranks) (hb : b < ranks) (hab : a ≠ b) :
    ∃ pair, (pairs sizeOf tag ranks a)[ahead ranks a b - 1]? = some pair ∧
      pair.destination = b ∧ pair.sendSize = sizeOf a b ∧ pair.tag = tag := by
  obtain ⟨hpos, hlt, -⟩ := ahead_cases ha hb hab
  have hk : ahead ranks a b - 1 + 1 = ahead ranks a b := by omega
  have hdestination := (destination_eq_iff ha hb hab (by omega)).2 hk
  exact ⟨_, getElem?_pairs.2 ⟨by omega, rfl⟩, hdestination, by simp only [hdestination], rfl⟩

theorem getElem?_pairs_recv (sizeOf : Nat → Nat → Nat) (tag : Tag) {a b : Nat}
    (ha : a < ranks) (hb : b < ranks) (hab : a ≠ b) :
    ∃ pair, (pairs sizeOf tag ranks b)[ahead ranks a b - 1]? = some pair ∧
      pair.source = a ∧ pair.recvSize = sizeOf a b ∧ pair.tag = tag := by
  obtain ⟨hpos, hlt, -⟩ := ahead_cases ha hb hab
  have hk : ahead ranks a b - 1 + 1 = ahead ranks a b := by omega
  have hsource := (source_eq_iff ha hb hab (by omega)).2 hk
  exact ⟨_, getElem?_pairs.2 ⟨by omega, rfl⟩, hsource, by simp only [hsource], rfl⟩

section Paired

variable {sendWaits recvWaits : Nat → List Wait} {plans : Nat → RankPlan}

/-- A send of a rank to another is that of the pair at which the other lies ahead. -/
theorem index_of_send
    (h : PairedPlans ranks 0 sendWaits recvWaits (pairs sizeOf tag ranks) plans) {id : OpId}
    {peer size : Nat} {label : Tag} {requires : List OpId} (hpeer : peer < ranks)
    (hne : id.rank ≠ peer)
    (hop : (Schedule.onWorld ranks plans).op? id = some ⟨.send peer size label, requires⟩) :
    id.index = 2 * (ahead ranks id.rank peer - 1) := by
  obtain ⟨hrank, ⟨k, pair, hpair, hindex, haction⟩ | ⟨k, pair, hpair, hindex, haction⟩ |
    ⟨k, pair, hpair, hcost, -⟩⟩ := h.cases_op hop
  · obtain ⟨hk, rfl⟩ := getElem?_pairs.1 hpair
    obtain ⟨hdestination, -, -⟩ := Action.send.inj haction
    have hahead := (destination_eq_iff hrank hpeer hne hk).1 hdestination.symm
    rw [hindex, ← hahead]
    rfl
  · cases haction
  · exact absurd rfl hcost

theorem index_of_recv
    (h : PairedPlans ranks 0 sendWaits recvWaits (pairs sizeOf tag ranks) plans) {id : OpId}
    {peer size : Nat} {label : Tag} {requires : List OpId} (hpeer : peer < ranks)
    (hne : peer ≠ id.rank)
    (hop : (Schedule.onWorld ranks plans).op? id = some ⟨.recv peer size label, requires⟩) :
    id.index = 2 * (ahead ranks peer id.rank - 1) + 1 := by
  obtain ⟨hrank, ⟨k, pair, hpair, hindex, haction⟩ | ⟨k, pair, hpair, hindex, haction⟩ |
    ⟨k, pair, hpair, hcost, -⟩⟩ := h.cases_op hop
  · cases haction
  · obtain ⟨hk, rfl⟩ := getElem?_pairs.1 hpair
    obtain ⟨hsource, -, -⟩ := Action.recv.inj haction
    have hahead := (source_eq_iff hpeer hrank hne hk).1 hsource.symm
    rw [hindex, ← hahead]
    rfl
  · exact absurd rfl hcost

variable {size? : Nat → Nat → Option Nat} {waits : Nat → List Wait}

/-- Plans of these pairs make a complete exchange, whatever a pair waits for. -/
theorem exchanges_of_paired
    (h : PairedPlans ranks 0 waits waits (pairs sizeOf tag ranks) plans)
    (hnodup : ∀ k, (waits k).Nodup)
    (hsize : ∀ a < ranks, ∀ b < ranks, size? a b = some (sizeOf a b)) :
    (Schedule.onWorld ranks plans).Exchanges ranks tag size?
      fun rank k => (waits k).map (·.resolve rank 0) := by
  have hresolved : ∀ rank k, ((waits k).map (·.resolve rank 0)).Nodup := by
    intro rank k
    refine (hnodup k).map_on fun x hx y hy heq => ?_
    obtain ⟨i, -, rfl⟩ := h.sends_back k x hx
    obtain ⟨j, -, rfl⟩ := h.sends_back k y hy
    simpa [Wait.resolve] using heq
  have hmessage : ∀ a < ranks, ∀ b < ranks, a ≠ b →
      (Schedule.onWorld ranks plans).op? ⟨a, 2 * (ahead ranks a b - 1)⟩ =
        some ⟨.send b (sizeOf a b) tag, (waits (ahead ranks a b - 1)).map (·.resolve a 0)⟩ ∧
      (Schedule.onWorld ranks plans).op? ⟨b, 2 * (ahead ranks a b - 1) + 1⟩ =
        some ⟨.recv a (sizeOf a b) tag, (waits (ahead ranks a b - 1)).map (·.resolve b 0)⟩ := by
    intro a ha b hb hab
    constructor
    · obtain ⟨pair, hpair, rfl, hbytes, rfl⟩ := getElem?_pairs_send sizeOf tag ha hb hab
      have hplanned := h.planned_send hpair
      rw [show stride 0 = 2 from rfl] at hplanned
      rw [Schedule.op?_onWorld plans ha, hplanned, Option.map_some, ← hbytes,
        Planned.place_world (fun peer hpeer => by cases hpeer; exact hb) rfl (hresolved a _)]
    · obtain ⟨pair, hpair, rfl, hbytes, rfl⟩ := getElem?_pairs_recv sizeOf tag ha hb hab
      have hplanned := h.planned_recv hpair
      rw [show stride 0 = 2 from rfl] at hplanned
      rw [Schedule.op?_onWorld plans hb, hplanned, Option.map_some, ← hbytes,
        Planned.place_world (fun peer hpeer => by cases hpeer; exact ha) rfl (hresolved b _)]
  refine ⟨Schedule.rankCount_onWorld ranks plans, ?_, ?_, ?_, ?_⟩
  · exact fun a ha b hb hab => ⟨sizeOf a b, hsize a ha b hb, hmessage a ha b hb hab⟩
  · intro a ha b hb hab
    refine ⟨_, ⟨rfl, _, _, _, (hmessage a ha b hb hab).1⟩, ?_⟩
    rintro ⟨rank, index⟩ ⟨rfl, size, label, requires, hop⟩
    rw [OpId.mk.injEq]
    exact ⟨rfl, index_of_send h hb hab hop⟩
  · intro a ha b hb hab
    refine ⟨_, ⟨rfl, _, _, _, (hmessage a ha b hb hab).2⟩, ?_⟩
    rintro ⟨rank, index⟩ ⟨rfl, size, label, requires, hop⟩
    rw [OpId.mk.injEq]
    exact ⟨rfl, index_of_recv h ha hab hop⟩
  · intro id op hop
    obtain ⟨hrank, ⟨k, pair, hpair, -, haction⟩ | ⟨k, pair, hpair, -, haction⟩ |
      ⟨k, pair, hpair, hcost, -⟩⟩ := h.cases_op hop
    · obtain ⟨-, hlt, hne⟩ := h.mirrored.ends id.rank hrank pair (List.mem_of_getElem? hpair)
      obtain ⟨-, rfl⟩ := getElem?_pairs.1 hpair
      exact ⟨hrank, _, hlt, hne, _, Or.inl haction⟩
    · obtain ⟨⟨hlt, hne⟩, -⟩ := h.mirrored.ends id.rank hrank pair (List.mem_of_getElem? hpair)
      obtain ⟨-, rfl⟩ := getElem?_pairs.1 hpair
      exact ⟨hrank, _, hlt, hne, _, Or.inr haction⟩
    · exact absurd rfl hcost

end Paired

theorem nodup_windowWaits (window k : Nat) : (RankPlan.windowWaits window k).Nodup := by
  unfold RankPlan.windowWaits RankPlan.halves
  split <;> simp

theorem paired_parallel (sizeOf : Nat → Nat → Nat) (tag : Tag) (ranks : Nat) :
    PairedPlans ranks 0 (fun _ => []) (fun _ => []) (pairs sizeOf tag ranks)
      fun rank => .parallel (pairs sizeOf tag ranks rank) where
  flatten := fun _ => RankPlan.flatten_parallel _
  sends_back := by simp
  recvs_back := by simp
  mirrored := mirrored_pairs sizeOf tag ranks

theorem paired_windowed (sizeOf : Nat → Nat → Nat) (tag : Tag) (ranks : Nat) {window : Nat}
    (h : window ≠ 0) :
    PairedPlans ranks 0 (RankPlan.windowWaits window) (RankPlan.windowWaits window)
      (pairs sizeOf tag ranks) fun rank => .windowed window (pairs sizeOf tag ranks rank) where
  flatten := fun _ => RankPlan.flatten_windowed _ _
  sends_back := RankPlan.windowWaits_earlier h
  recvs_back := RankPlan.windowWaits_earlier h
  mirrored := mirrored_pairs sizeOf tag ranks

theorem exchanges_parallel {size? : Nat → Nat → Option Nat}
    (hsize : ∀ a < ranks, ∀ b < ranks, size? a b = some (sizeOf a b)) :
    (Schedule.onWorld ranks fun rank => .parallel (pairs sizeOf tag ranks rank)).Exchanges ranks tag
      size? fun _ _ => [] :=
  exchanges_of_paired (paired_parallel sizeOf tag ranks) (fun _ => List.nodup_nil) hsize

theorem getElem?_of_square {sizes : List (List Nat)} (hrows : sizes.length = ranks)
    (hsquare : ∀ row ∈ sizes, row.length = ranks) {a b : Nat} (ha : a < ranks) (hb : b < ranks) :
    (do (← sizes[a]?)[b]?) = some (entry sizes a b) := by
  have hrow : a < sizes.length := by omega
  have hcolumn : b < sizes[a].length := by
    rw [hsquare _ (List.getElem_mem hrow)]
    exact hb
  simp [entry, List.getElem?_eq_getElem hrow, List.getElem?_eq_getElem hcolumn]

theorem unbalanced_of_square (request : Request) {sizes : List (List Nat)}
    (hrows : sizes.length = ranks) (hsquare : ∀ row ∈ sizes, row.length = ranks) :
    unbalanced request sizes ranks =
      .ok fun rank => .parallel (pairs (entry sizes) request.tag ranks rank) := by
  have hnone : sizes.find? (·.length ≠ ranks) = none := by
    simpa [List.find?_eq_none] using hsquare
  rw [unbalanced, if_neg (by omega), hnone]

/-- On any number of ranks every all-to-all is built, and in each every rank sends to every other
exactly once and receives from it exactly once. The size is the same for all in the windowed and the
balanced one, and the entry of the matrix in the unbalanced one. Only the windowed one has
dependencies: both halves of a pair that lies a window behind the first or more require the two
halves of the pair one window before it. -/
theorem every_pair_once {ranks : Nat} (hranks : 0 < ranks) (request : Request) :
    (request.window ≠ 0 → ∃ s, (windowed request).schedule ranks = .ok s ∧
      s.Exchanges ranks request.tag (fun _ _ => some request.size) fun rank k =>
        if k < request.window then []
        else [⟨rank, 2 * (k - request.window)⟩, ⟨rank, 2 * (k - request.window) + 1⟩]) ∧
    (∃ s, (balanced request).schedule ranks = .ok s ∧
      s.Exchanges ranks request.tag (fun _ _ => some request.size) fun _ _ => []) ∧
    ∀ sizes : List (List Nat), sizes.length = ranks → (∀ row ∈ sizes, row.length = ranks) →
      ∃ s, (unbalanced request sizes).schedule ranks = .ok s ∧
        s.Exchanges ranks request.tag (fun a b => do (← sizes[a]?)[b]?) fun _ _ => [] := by
  refine ⟨fun hwindow => ?_, ?_, fun sizes hrows hsquare => ?_⟩
  · have hplans := paired_windowed (fun _ _ => request.size) request.tag ranks hwindow
    have hmade := exchanges_of_paired hplans (nodup_windowWaits request.window)
      fun _ _ _ _ => rfl
    have hwaits : (fun rank k => (RankPlan.windowWaits request.window k).map (·.resolve rank 0)) =
        fun rank k => if k < request.window then []
          else [⟨rank, 2 * (k - request.window)⟩, ⟨rank, 2 * (k - request.window) + 1⟩] := by
      funext rank k
      unfold RankPlan.windowWaits RankPlan.halves
      split <;> simp [Wait.resolve]
    rw [hwaits] at hmade
    exact ⟨_, Pattern.schedule_eq hranks (if_neg hwindow) hplans.coherent, hmade⟩
  · exact ⟨_, Pattern.schedule_eq hranks rfl (paired_parallel _ _ _).coherent,
      exchanges_parallel fun _ _ _ _ => rfl⟩
  · exact ⟨_, Pattern.schedule_eq hranks (unbalanced_of_square request hrows hsquare)
      (paired_parallel _ _ _).coherent,
      exchanges_parallel fun a ha b hb => getElem?_of_square hrows hsquare ha hb⟩

/-- On four ranks with a window of two, and with a matrix whose entries all differ. -/
theorem every_pair_once_four :
    let request : Request := { size := 64, tag := 7, window := 2 }
    let sizes : List (List Nat) := [[0, 1, 2, 3], [4, 5, 6, 7], [8, 9, 10, 11], [12, 13, 14, 15]]
    0 < 4 ∧ request.window ≠ 0 ∧ (sizes.length = 4 ∧ ∀ row ∈ sizes, row.length = 4) ∧
      (∃ s, (windowed request).schedule 4 = .ok s ∧
        s.op? ⟨3, 4⟩ = some ⟨.send 2 64 7, [⟨3, 0⟩, ⟨3, 1⟩]⟩) ∧
      ∃ s, (unbalanced request sizes).schedule 4 = .ok s ∧
        s.op? ⟨3, 4⟩ = some ⟨.send 2 14 7, []⟩ ∧ s.op? ⟨2, 5⟩ = some ⟨.recv 3 14 7, []⟩ := by
  intro request sizes
  obtain ⟨hwindowed, -, hunbalanced⟩ := every_pair_once (show 0 < 4 by decide) request
  obtain ⟨s, hs, hsame⟩ := hwindowed (by decide)
  obtain ⟨t, ht, hsizes⟩ := hunbalanced sizes rfl (by decide)
  obtain ⟨size, hsize, hsend, -⟩ := hsame.message 3 (by decide) 2 (by decide) (by decide)
  obtain ⟨size', hsize', hsend', hrecv'⟩ :=
    hsizes.message 3 (by decide) 2 (by decide) (by decide)
  cases hsize
  cases hsize'
  exact ⟨by decide, by decide, ⟨rfl, by decide⟩, ⟨s, hs, hsend⟩, ⟨t, ht, hsend', hrecv'⟩⟩

end Alltoall
end Collectives
