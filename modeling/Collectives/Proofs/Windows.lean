import Collectives.Alltoall
import Collectives.Proofs.Exchanges
import Mathlib.Data.Finset.Card
import Mathlib.Logic.Relation

/-!
# Windows

In an execution operations start and complete, and nothing starts before what it requires has
completed. A windowed exchange never has more pairs in flight than its window allows: two pairs in
flight cannot lie a multiple of the window apart, because the earlier one is complete before the
later one starts.
-/

namespace Collectives

/-- How far an execution came: the operations that have started and those that have completed. -/
structure Progress where
  started : Finset OpId := ∅
  completed : Finset OpId := ∅

/-- The send and the receive of the pair number `k`, behind `base` operations of `owner`. -/
def halvesAt (owner base k : Nat) : List OpId := [⟨owner, base + 2 * k⟩, ⟨owner, base + 2 * k + 1⟩]

namespace Progress

/-- A pair is in flight from the start of its first half to the completion of its last. -/
def InFlight (p : Progress) (owner base k : Nat) : Prop :=
  (∃ id ∈ halvesAt owner base k, id ∈ p.started) ∧ ∃ id ∈ halvesAt owner base k, id ∉ p.completed

instance (p : Progress) (owner base k : Nat) : Decidable (p.InFlight owner base k) :=
  inferInstanceAs (Decidable (_ ∧ _))

/-- The pairs in flight among the first `count`. -/
def inFlight (p : Progress) (owner base count : Nat) : Finset Nat :=
  (Finset.range count).filter (p.InFlight owner base)

theorem mem_inFlight {p : Progress} {owner base count k : Nat} :
    k ∈ p.inFlight owner base count ↔ k < count ∧ p.InFlight owner base k := by
  rw [inFlight, Finset.mem_filter, Finset.mem_range]

end Progress

namespace Schedule

/-- A step of an execution: an operation starts, all that it requires being complete, or one that
has started completes. -/
inductive Moves (s : Schedule) (p : Progress) : Progress → Prop where
  | start {id : OpId} (hid : (s.op? id).isSome = true) (hopen : id ∉ p.started)
      (hready : ∀ dep ∈ s.requiresOf id, dep ∈ p.completed) :
      Moves s p { p with started := insert id p.started }
  | complete {id : OpId} (hstarted : id ∈ p.started) (hopen : id ∉ p.completed) :
      Moves s p { p with completed := insert id p.completed }

def Occurs (s : Schedule) : Progress → Prop := Relation.ReflTransGen s.Moves {}

/-- From `base` on, `owner` has the pairs of an exchange with a window: the first ones require
nothing, and both halves of a later pair require the two halves of the pair one window before. -/
structure Windowed (s : Schedule) (c : Communicator) (owner base window : Nat)
    (pairs : List Pair) : Prop where
  send : ∀ k pair, pairs[k]? = some pair → s.op? ⟨owner, base + 2 * k⟩ =
    some ⟨.send (c.member pair.destination) pair.sendSize pair.tag,
      if k < window then [] else halvesAt owner base (k - window)⟩
  recv : ∀ k pair, pairs[k]? = some pair → s.op? ⟨owner, base + 2 * k + 1⟩ =
    some ⟨.recv (c.member pair.source) pair.recvSize pair.tag,
      if k < window then [] else halvesAt owner base (k - window)⟩

/-- At no moment of an execution are more than `window` of `count` pairs in flight, and at some
moment of some execution as many as there can be are. -/
structure KeepsWindow (s : Schedule) (owner base window count : Nat) : Prop where
  bounded : ∀ p, s.Occurs p → (p.inFlight owner base count).card ≤ window
  reached : ∃ p, s.Occurs p ∧ (p.inFlight owner base count).card = min window count

end Schedule

/-- Nothing has completed without having started, or started before what it requires completed. -/
structure Progress.Sound (s : Schedule) (p : Progress) : Prop where
  completed_started : ∀ id ∈ p.completed, id ∈ p.started
  requires_completed : ∀ id ∈ p.started, ∀ dep ∈ s.requiresOf id, dep ∈ p.completed

theorem Schedule.Moves.sound {s : Schedule} {p next : Progress} (h : s.Moves p next)
    (hp : p.Sound s) : next.Sound s := by
  cases h with
  | @start new hid hopen hready =>
    constructor
    · exact fun id hid => Finset.mem_insert_of_mem (hp.completed_started id hid)
    · intro id hid
      rcases Finset.mem_insert.1 hid with rfl | hold
      · exact hready
      · exact hp.requires_completed id hold
  | @complete new hstarted hopen =>
    constructor
    · intro id hid
      rcases Finset.mem_insert.1 hid with rfl | hold
      · exact hstarted
      · exact hp.completed_started id hold
    · exact fun id hid dep hdep =>
        Finset.mem_insert_of_mem (hp.requires_completed id hid dep hdep)

theorem Schedule.Occurs.sound {s : Schedule} {p : Progress} (h : s.Occurs p) : p.Sound s := by
  induction h with
  | refl => exact ⟨fun _ hid => absurd hid (Finset.notMem_empty _),
      fun _ hid => absurd hid (Finset.notMem_empty _)⟩
  | tail _ hmove ih => exact hmove.sound ih

namespace Schedule.Windowed

variable {s : Schedule} {c : Communicator} {owner base window : Nat} {pairs : List Pair}
  {p : Progress}

theorem requiresOf_half (h : s.Windowed c owner base window pairs) {k : Nat}
    (hk : k < pairs.length) {id : OpId} (hid : id ∈ halvesAt owner base k) :
    s.requiresOf id = if k < window then [] else halvesAt owner base (k - window) := by
  have hpair : pairs[k]? = some pairs[k] := List.getElem?_eq_getElem hk
  simp only [halvesAt, List.mem_cons, List.not_mem_nil, or_false] at hid
  rcases hid with rfl | rfl
  · rw [requiresOf, h.send k _ hpair]
    rfl
  · rw [requiresOf, h.recv k _ hpair]
    rfl

theorem first_completed (h : s.Windowed c owner base window pairs) (hp : p.Sound s) {k : Nat}
    (hk : k < pairs.length) (hwindow : window ≤ k)
    (hstarted : ∃ id ∈ halvesAt owner base k, id ∈ p.started) :
    ∀ id ∈ halvesAt owner base (k - window), id ∈ p.completed := by
  obtain ⟨half, hhalf, hin⟩ := hstarted
  intro id hid
  apply hp.requires_completed half hin
  rwa [h.requiresOf_half hk hhalf, if_neg (Nat.not_lt.2 hwindow)]

/-- Once a pair has started, every pair a multiple of the window before it is complete. -/
theorem completed_behind (h : s.Windowed c owner base window pairs) (hp : p.Sound s) {k : Nat}
    (windows : Nat) (hk : k + (windows + 1) * window < pairs.length)
    (hstarted : ∃ id ∈ halvesAt owner base (k + (windows + 1) * window), id ∈ p.started) :
    ∀ id ∈ halvesAt owner base k, id ∈ p.completed := by
  induction windows with
  | zero =>
    rw [Nat.zero_add, Nat.one_mul] at hk hstarted
    have hfirst := h.first_completed hp hk (Nat.le_add_left window k) hstarted
    rwa [Nat.add_sub_cancel] at hfirst
  | succ windows ih =>
    rw [Nat.succ_mul, ← Nat.add_assoc] at hk hstarted
    have hfirst := h.first_completed hp hk (Nat.le_add_left window _) hstarted
    rw [Nat.add_sub_cancel] at hfirst
    refine ih (Nat.lt_of_le_of_lt (Nat.le_add_right _ window) hk) ?_
    -- a half that has completed has started
    exact ⟨_, List.mem_cons_self, hp.completed_started _ (hfirst _ List.mem_cons_self)⟩

theorem not_both_inFlight (h : s.Windowed c owner base window pairs) (hp : p.Sound s) {i j : Nat}
    (hlt : i < j) (hj : j < pairs.length) (hmod : i % window = j % window)
    (hi : p.InFlight owner base i) : ¬p.InFlight owner base j := by
  intro hflight
  obtain ⟨windows, hwindows⟩ :=
    Nat.dvd_of_mod_eq_zero (Nat.sub_mod_eq_zero_of_mod_eq hmod.symm)
  obtain ⟨before, rfl⟩ : ∃ before, windows = before + 1 := by
    refine Nat.exists_eq_succ_of_ne_zero ?_
    rintro rfl
    omega
  have hdistance : j = i + (before + 1) * window := by
    rw [Nat.mul_comm]
    omega
  obtain ⟨id, hid, hincomplete⟩ := hi.2
  rw [hdistance] at hj hflight
  exact hincomplete (h.completed_behind hp before hj hflight.1 id hid)

theorem card_inFlight_le (h : s.Windowed c owner base window pairs) (hwindow : window ≠ 0)
    (hp : p.Sound s) : (p.inFlight owner base pairs.length).card ≤ window := by
  have hinto : Set.MapsTo (· % window) (p.inFlight owner base pairs.length : Set Nat)
      (Finset.range window) :=
    fun k _ => Finset.mem_coe.2 (Finset.mem_range.2 (Nat.mod_lt k (Nat.pos_of_ne_zero hwindow)))
  have hinj : Set.InjOn (· % window) (p.inFlight owner base pairs.length : Set Nat) := by
    intro i hi j hj hmod
    rw [Finset.mem_coe, Progress.mem_inFlight] at hi hj
    rcases Nat.lt_trichotomy i j with hlt | heq | hlt
    · exact absurd hj.2 (h.not_both_inFlight hp hlt hj.1 hmod hi.2)
    · exact heq
    · exact absurd hi.2 (h.not_both_inFlight hp hlt hi.1 hmod.symm hj.2)
  exact (Finset.card_le_card_of_injOn _ hinto hinj).trans_eq (Finset.card_range window)

/-- The sends of the first `count` pairs. -/
def sends (owner base count : Nat) : Finset OpId :=
  (Finset.range count).image fun k => ⟨owner, base + 2 * k⟩

theorem mem_sends {count : Nat} {id : OpId} :
    id ∈ sends owner base count ↔ ∃ k < count, (⟨owner, base + 2 * k⟩ : OpId) = id := by
  simp [sends]

/-- The sends of the first pairs can start one after another before anything completes. -/
theorem occurs_sends (h : s.Windowed c owner base window pairs) (count : Nat)
    (hcount : count ≤ min window pairs.length) :
    s.Occurs { started := sends owner base count } := by
  induction count with
  | zero => exact Relation.ReflTransGen.refl
  | succ count ih =>
    have hk : count < pairs.length := by omega
    have hpair : pairs[count]? = some pairs[count] := List.getElem?_eq_getElem hk
    have hnew : (⟨owner, base + 2 * count⟩ : OpId) ∉ sends owner base count := by
      rw [mem_sends]
      rintro ⟨k, hlt, heq⟩
      have hindex := congrArg OpId.index heq
      simp only at hindex
      omega
    have hready : ∀ dep ∈ s.requiresOf ⟨owner, base + 2 * count⟩, dep ∈ (∅ : Finset OpId) := by
      rw [h.requiresOf_half hk List.mem_cons_self, if_pos (by omega)]
      exact fun dep hdep => absurd hdep List.not_mem_nil
    have hmove : s.Moves { started := sends owner base count }
        { started := insert ⟨owner, base + 2 * count⟩ (sends owner base count) } :=
      .start (by rw [h.send count _ hpair]; rfl) hnew hready
    rw [sends, Finset.range_add_one, Finset.image_insert]
    exact (ih (by omega)).tail hmove

theorem inFlight_sends (count all : Nat) (hle : count ≤ all) :
    ({ started := sends owner base count } : Progress).inFlight owner base all =
      Finset.range count := by
  ext k
  rw [Progress.mem_inFlight, Finset.mem_range]
  constructor
  · rintro ⟨-, ⟨id, hid, hstarted⟩, -⟩
    obtain ⟨earlier, hlt, rfl⟩ := mem_sends.1 hstarted
    simp only [halvesAt, List.mem_cons, OpId.mk.injEq, true_and, List.not_mem_nil,
      or_false] at hid
    omega
  · intro hk
    exact ⟨Nat.lt_of_lt_of_le hk hle, ⟨_, List.mem_cons_self, mem_sends.2 ⟨k, hk, rfl⟩⟩,
      _, List.mem_cons_self, Finset.notMem_empty _⟩

theorem keepsWindow (h : s.Windowed c owner base window pairs) (hwindow : window ≠ 0) :
    s.KeepsWindow owner base window pairs.length where
  bounded := fun _ hp => h.card_inFlight_le hwindow hp.sound
  reached := by
    refine ⟨_, h.occurs_sends _ (Nat.le_refl _), ?_⟩
    rw [inFlight_sends _ _ (Nat.min_le_right _ _), Finset.card_range]

/-- A schedule that has the operations of a windowed plan at their places has its pairs. -/
theorem of_plan
    (hops : ∀ position planned, (RankPlan.windowed window pairs).flatten[position]? = some planned →
      s.op? ⟨owner, base + position⟩ = some (planned.place c owner base)) :
    s.Windowed c owner base window pairs := by
  have hwaits : ∀ k, (RankPlan.windowWaits window k).map (·.resolve owner base) =
      if k < window then [] else halvesAt owner base (k - window) := by
    intro k
    unfold RankPlan.windowWaits
    split
    · rfl
    · rfl
  have hnodup : ∀ k, ((RankPlan.windowWaits window k).map (·.resolve owner base)).Nodup := by
    intro k
    rw [hwaits]
    split
    · exact List.nodup_nil
    · simp [halvesAt]
  have hget : ∀ {position planned}, PairOp 0 (RankPlan.windowWaits window)
      (RankPlan.windowWaits window) pairs position planned →
      s.op? ⟨owner, base + position⟩ = some (planned.place c owner base) := by
    intro position planned h
    apply hops
    rwa [RankPlan.flatten_windowed, getElem?_pairOps]
  constructor
  · intro k pair hpair
    have hop := hget (.send hpair)
    rwa [Planned.place_eq (hnodup k), hwaits] at hop
  · intro k pair hpair
    have hop := hget (.recv hpair)
    rwa [Planned.place_eq (hnodup k), hwaits] at hop

end Schedule.Windowed

section Placed

variable {c : Communicator} {s : Schedule}

open Build

/-- A valid exchange with a window is carried out. -/
theorem Exchange.windowed_made (hinside : c.Inside s) {ex : Exchange} (hvalid : ex.Valid c.size)
    {window : Nat} (hwindow : window ≠ 0) :
    ∃ last made, (ex.windowed c window).runOn s = (.ok last, made) ∧
      made.Windowed c (c.member ex.rank) (s.opsAt (c.member ex.rank)).length window ex.listed := by
  refine ⟨_, _, runOn_windowed hinside hvalid hwindow, Schedule.Windowed.of_plan ?_⟩
  intro position planned hget
  rw [Schedule.op?_eq, Schedule.opsAt_grow_self (hinside _ (c.member_mem hvalid.rank_lt)),
    List.getElem?_append_right (Nat.le_add_right _ _), Nat.add_sub_cancel_left, RankPlan.opsOn,
    List.getElem?_map, hget]
  rfl

theorem Alltoall.windowed_made (hinside : c.Inside s) {request : Alltoall.Request}
    (hwindow : request.window ≠ 0) :
    ∃ made, (Build.run c (Alltoall.windowed request)).runOn s = (.ok (), made) ∧
      ∀ rank < c.size, made.Windowed c (c.member rank) (s.baseOf c (2 * (c.size - 1)) rank)
        request.window (Alltoall.pairs (fun _ _ => request.size) request.tag c.size rank) := by
  have hplans : Alltoall.windowed request c.size = .ok fun rank =>
      .windowed request.window
        (Alltoall.pairs (fun _ _ => request.size) request.tag c.size rank) := if_neg hwindow
  obtain ⟨level, hc⟩ := Alltoall.coherent_windowed request c.size _ hplans
  have hlength : ∀ rank, (RankPlan.windowed request.window
      (Alltoall.pairs (fun _ _ => request.size) request.tag c.size rank)).flatten.length =
      2 * (c.size - 1) := by
    intro rank
    rw [RankPlan.length_flatten_windowed, Alltoall.length_pairs]
  refine ⟨s.placed c _, ?_, fun rank hrank => Schedule.Windowed.of_plan fun position planned hget =>
    Schedule.op?_placed_at hlength hinside hrank hget⟩
  simp [Build.run, runOn_bind, hplans, runOn_place hinside fun rank hrank => hc.fits rank hrank s]

/-- On any schedule that has the ranks of the communicator, every valid exchange with a window is
carried out, and so is the windowed all-to-all, for every rank. In no execution of what they make,
whatever the order in which operations start and complete, are more pairs of a rank in flight than
the window allows, and as many as that, or all there are, can be in flight at once. -/
theorem Build.windows_kept (hinside : c.Inside s) :
    (∀ ex : Exchange, ex.Valid c.size → ∀ window ≠ 0, ∃ last made,
      (ex.windowed c window).runOn s = (.ok last, made) ∧
      made.Windowed c (c.member ex.rank) (s.opsAt (c.member ex.rank)).length window ex.listed ∧
      made.KeepsWindow (c.member ex.rank) (s.opsAt (c.member ex.rank)).length window
        ex.listed.length) ∧
    ∀ request : Alltoall.Request, request.window ≠ 0 → ∃ made,
      (Build.run c (Alltoall.windowed request)).runOn s = (.ok (), made) ∧
      ∀ rank < c.size,
        made.Windowed c (c.member rank) (s.baseOf c (2 * (c.size - 1)) rank) request.window
          (Alltoall.pairs (fun _ _ => request.size) request.tag c.size rank) ∧
        made.KeepsWindow (c.member rank) (s.baseOf c (2 * (c.size - 1)) rank) request.window
          (c.size - 1) := by
  constructor
  · intro ex hvalid window hwindow
    obtain ⟨last, made, hrun, hwindowed⟩ := Exchange.windowed_made hinside hvalid hwindow
    exact ⟨last, made, hrun, hwindowed, hwindowed.keepsWindow hwindow⟩
  · intro request hwindow
    obtain ⟨made, hrun, hwindowed⟩ := Alltoall.windowed_made hinside hwindow
    refine ⟨made, hrun, fun rank hrank => ⟨hwindowed rank hrank, ?_⟩⟩
    have hkeeps := (hwindowed rank hrank).keepsWindow hwindow
    rwa [Alltoall.length_pairs] at hkeeps

/-- On a communicator that has a rank twice, behind an operation which that rank has already. -/
theorem Build.windows_kept_repeated :
    let busy : Schedule := ⟨[[], [⟨.calc 7, []⟩], []]⟩
    let twice : Communicator := ⟨[1, 2, 1]⟩
    let ex : Exchange := ⟨0, [1, 2, 1], [2, 1, 2], [8, 8, 8], [4, 4, 4], 5⟩
    let request : Alltoall.Request := { size := 64, tag := 7, window := 1 }
    twice.Inside busy ∧ ex.Valid twice.size ∧ (∃ last made,
      (ex.windowed twice 2).runOn busy = (.ok last, made) ∧ made.KeepsWindow 1 1 2 3) ∧
    request.window ≠ 0 ∧ ∃ made,
      (Build.run twice (Alltoall.windowed request)).runOn busy = (.ok (), made) ∧
      made.KeepsWindow 1 1 1 2 ∧ made.KeepsWindow 1 5 1 2 := by
  intro busy twice ex request
  have hinside : twice.Inside busy := by
    simp [twice, busy, Communicator.Inside, Schedule.rankCount]
  have hvalid : ex.Valid twice.size :=
    ⟨rfl, rfl, rfl, by decide, by simp [ex, twice, Communicator.size],
      by simp [ex, twice, Communicator.size]⟩
  obtain ⟨hexchange, halltoall⟩ := windows_kept hinside
  obtain ⟨last, made, hrun, -, hkeeps⟩ := hexchange ex hvalid 2 (by decide)
  obtain ⟨placed, hplaced, hranks⟩ := halltoall request (by decide)
  exact ⟨hinside, hvalid, ⟨last, made, hrun, hkeeps⟩, by decide, placed, hplaced,
    (hranks 0 (by decide)).2, (hranks 2 (by decide)).2⟩

end Placed
end Collectives
