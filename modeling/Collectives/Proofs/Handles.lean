import Collectives.Proofs.Loops
import Collectives.Proofs.Store
import Collectives.Proofs.World

/-!
# Handles

The lists of an exchange are checked before anything is created, so whatever they are refused for
leaves no trace. The handle of a sequential exchange is looked up later, when the first pair is
linked to it. By then the pair is there: it stays if the handle names nothing, and a handle that
happens to name one of its two operations is accepted, so that this operation waits for itself.
-/

namespace Collectives

/-- The operations of a pair as they are created, before they are linked. -/
def Pair.unlinked (c : Communicator) (pair : Pair) : List Op :=
  [⟨.send (c.member pair.destination) pair.sendSize pair.tag, []⟩,
    ⟨.recv (c.member pair.source) pair.recvSize pair.tag, []⟩]

namespace Exchange

/-- The name of what the rank of an exchange gets at `position` behind its operations in `s`. -/
def upcoming (ex : Exchange) (c : Communicator) (s : Schedule) (position : Nat) : OpId :=
  ⟨c.member ex.rank, (s.opsAt (c.member ex.rank)).length + position⟩

/-- A handle that the first pair of an exchange is to wait for, though no operation of `s` has this
name. -/
structure Unmet (ex : Exchange) (c : Communicator) (s : Schedule) (dep : OpId) : Prop where
  valid : ex.Valid c.size
  nonempty : ex.listed ≠ []
  missing : s.op? dep = none

/-- A result that left `s` as it was if it is a failure, and that let no operation come to require
itself. -/
structure Clean (s : Schedule) (result : Except Failure (Option OpId) × Schedule) : Prop where
  undone : ∀ failure, result.1 = .error failure → result.2 = s
  irreflexive : ∀ id, id ∈ result.2.requiresOf id → id ∈ s.requiresOf id

open Build

variable {c : Communicator} {s : Schedule} {ex : Exchange}

theorem known_two_iff {owner : Nat} {dep : OpId} :
    Known s owner 2 dep ↔ (s.op? dep).isSome = true ∨
      dep = ⟨owner, (s.opsAt owner).length⟩ ∨ dep = ⟨owner, (s.opsAt owner).length + 1⟩ := by
  constructor
  · rintro (hold | ⟨position, hlt, rfl⟩)
    · exact Or.inl hold
    · rcases Nat.le_one_iff_eq_zero_or_eq_one.1 (Nat.le_of_lt_succ hlt) with rfl | rfl
      · exact Or.inr (Or.inl rfl)
      · exact Or.inr (Or.inr rfl)
  · rintro (hold | rfl | rfl)
    · exact Or.inl hold
    · exact Or.inr ⟨0, by decide, rfl⟩
    · exact Or.inr ⟨1, by decide, rfl⟩

/-- What is not known is not there once `owner` has its next operations either. -/
theorem op?_grow_of_unknown {owner : Nat} (howner : owner < s.rankCount) {dep : OpId}
    {ops : List Op} (hdep : ¬Known s owner ops.length dep) : (s.grow owner ops).op? dep = none := by
  rw [Schedule.op?_eq]
  by_cases hrank : dep.rank = owner
  · rw [hrank, Schedule.opsAt_grow_self howner, List.getElem?_eq_none]
    by_contra hlt
    rw [List.length_append, Nat.not_le] at hlt
    apply hdep
    by_cases hold : dep.index < (s.opsAt owner).length
    · exact Or.inl ((s.isSome_op? dep).2 (hrank ▸ hold))
    · refine Or.inr ⟨dep.index - (s.opsAt owner).length, by omega, ?_⟩
      rw [← hrank, Nat.add_sub_of_le (hrank ▸ Nat.le_of_not_lt hold)]
  · rw [Schedule.opsAt_grow_of_ne s hrank, ← Schedule.op?_eq]
    cases hop : s.op? dep with
    | none => rfl
    | some op => exact absurd (Or.inl (by rw [hop]; rfl)) hdep

theorem runOn_linkPair_unknown {owner : Nat} (howner : owner < s.rankCount) (first second : Op)
    {dep : OpId} (hdep : ¬Known s owner 2 dep) (send recv : OpId) :
    (linkPair send recv (some dep)).runOn (s.grow owner [first, second]) =
      (.error (.refused (.unknownOp dep)), s.grow owner [first, second]) := by
  have hmissing : (s.grow owner [first, second]).op? dep = none := op?_grow_of_unknown howner hdep
  simp only [linkPair, runOn_bind, runOn_require,
    Schedule.require_eq_error.2 (Or.inl ⟨hmissing, rfl⟩)]

section First

variable {rank : Nat} {pair : Pair}

theorem peer_lt_of_mem_round (hpair : pair.source < c.size ∧ pair.destination < c.size)
    (waits : List Wait) :
    ∀ planned ∈ pair.round waits, ∀ peer, planned.action.peer? = some peer → peer < c.size := by
  intro planned hmem peer hpeer
  simp only [Pair.round, List.mem_cons, List.not_mem_nil, or_false] at hmem
  rcases hmem with rfl | rfl <;> cases hpeer
  · exact hpair.2
  · exact hpair.1

/-- The first round of a chain creates a pair and then links it to the handle. -/
theorem runOn_issueRound_first (hrank : rank < c.size) (hinside : c.Inside s)
    (hpair : pair.source < c.size ∧ pair.destination < c.size) (dep : OpId) :
    (issueRound c rank [] (pair.round [.existing dep])).runOn s =
      (do
        linkPair ⟨c.member rank, (s.opsAt (c.member rank)).length⟩
          ⟨c.member rank, (s.opsAt (c.member rank)).length + 1⟩ (some dep)
        return Schedule.names (c.member rank) (s.opsAt (c.member rank)).length 2 : Build _).runOn
          (s.grow (c.member rank) (pair.unlinked c)) := by
  have hcreate := runOn_create_round hrank (hinside _ (c.member_mem hrank))
    (pair.round [.existing dep]) (peer_lt_of_mem_round hpair _)
  have hbare : (pair.round [.existing dep]).map (bare c) = pair.unlinked c := rfl
  have hlength : (pair.round [.existing dep]).length = 2 := rfl
  rw [hbare, hlength] at hcreate
  simp only [issueRound, runOn_bind, hcreate, runOn_pure, List.nil_append]
  simp only [Schedule.names_succ, Schedule.names_zero, Pair.round, List.zip_cons_cons,
    List.zip_nil_right, List.forM_eq_forM, List.forM_cons, List.forM_nil, Wait.target, runOn_bind,
    runOn_demand_ok, linkPair, runOn_pure]
  rcases (require ⟨c.member rank, (s.opsAt (c.member rank)).length⟩ dep).runOn
    (s.grow (c.member rank) (pair.unlinked c)) with ⟨failure | ⟨⟨⟩⟩, made⟩
  · rfl
  · dsimp only
    rcases (require ⟨c.member rank, (s.opsAt (c.member rank)).length + 1⟩ dep).runOn made with
      ⟨failure | ⟨⟨⟩⟩, made⟩ <;> rfl

theorem runOn_issueRound_known (hrank : rank < c.size) (hinside : c.Inside s)
    (hpair : pair.source < c.size ∧ pair.destination < c.size) {dep : OpId}
    (hdep : Known s (c.member rank) 2 dep) :
    (issueRound c rank [] (pair.round [.existing dep])).runOn s =
      (.ok (Schedule.names (c.member rank) (s.opsAt (c.member rank)).length 2),
        s.grow (c.member rank) ((pair.round [.existing dep]).map
          (·.place c (c.member rank) (s.opsAt (c.member rank)).length))) := by
  have hhandle : ∀ other ∈ some dep, Known s (c.member rank) 2 other := fun other hother =>
    Option.mem_some_iff.1 hother ▸ hdep
  have hlink := runOn_linkPair (hinside _ (c.member_mem hrank)) []
    ⟨.send (c.member pair.destination) pair.sendSize pair.tag, []⟩
    ⟨.recv (c.member pair.source) pair.recvSize pair.tag, []⟩ hhandle
  simp only [List.length_nil, Nat.add_zero, Nat.zero_add, List.nil_append] at hlink
  rw [runOn_issueRound_first hrank hinside hpair, runOn_bind, Pair.unlinked, hlink]
  rfl

theorem runOn_issueRound_unknown (hrank : rank < c.size) (hinside : c.Inside s)
    (hpair : pair.source < c.size ∧ pair.destination < c.size) {dep : OpId}
    (hdep : ¬Known s (c.member rank) 2 dep) :
    (issueRound c rank [] (pair.round [.existing dep])).runOn s =
      (.error (.refused (.unknownOp dep)), s.grow (c.member rank) (pair.unlinked c)) := by
  have hlink := runOn_linkPair_unknown (hinside _ (c.member_mem hrank))
    ⟨.send (c.member pair.destination) pair.sendSize pair.tag, []⟩
    ⟨.recv (c.member pair.source) pair.recvSize pair.tag, []⟩ hdep
    ⟨c.member rank, (s.opsAt (c.member rank)).length⟩
    ⟨c.member rank, (s.opsAt (c.member rank)).length + 1⟩
  rw [runOn_issueRound_first hrank hinside hpair, runOn_bind, Pair.unlinked, hlink]

end First

/-- Only the first round of a chain depends on the handle. -/
theorem chained_cons_eq (cost : Nat) (pair : Pair) (rest : List Pair) :
    ∃ later : RankPlan, ∀ handle,
      RankPlan.chained cost 0 handle (pair :: rest) = pair.round handle.toList :: later := by
  by_cases hcost : cost = 0
  · exact ⟨.chained cost 2 (some (.own 1)) rest, fun _ => if_pos hcost⟩
  · exact ⟨[⟨.calc cost, [.own 1]⟩] :: RankPlan.chained cost 3 (some (.own 2)) rest,
      fun _ => if_neg hcost⟩

/-- Without pairs there is nothing to link, whatever the handle is. -/
theorem runOn_sequential_nil (h : ex.Valid c.size) (hnil : ex.listed = []) (last : Option OpId)
    (cost : Nat) : (sequential c ex last cost).runOn s = (.ok last, s) := by
  simp only [sequential, runOn_bind, h.pairs_eq, hnil, runOn_check_ok, RankPlan.chained]
  rfl

/-- A sequential exchange whose handle is there once the first pair is created. -/
theorem runOn_sequential_of_known (hinside : c.Inside s) (h : ex.Valid c.size) {last : Option OpId}
    (hlast : ∀ dep ∈ last, Known s (c.member ex.rank) 2 dep) (cost : Nat) :
    (sequential c ex last cost).runOn s =
      (.ok (left (c.member ex.rank) (s.opsAt (c.member ex.rank)).length
          (stride cost * ex.listed.length) last),
        s.grow (c.member ex.rank)
          ((RankPlan.chained cost 0 (last.map .existing) ex.listed).opsOn c (c.member ex.rank)
            (s.opsAt (c.member ex.rank)).length)) := by
  cases last with
  | none => exact runOn_sequential_none hinside h cost
  | some dep =>
    cases hlisted : ex.listed with
    | nil =>
      rw [runOn_sequential_nil h hlisted, left, List.length_nil, Nat.mul_zero, if_pos rfl,
        RankPlan.chained, RankPlan.opsOn_nil, Schedule.grow_nil]
    | cons pair rest =>
      have howner := hinside _ (c.member_mem h.rank_lt)
      have hends : ∀ p ∈ pair :: rest, p.source < c.size ∧ p.destination < c.size :=
        hlisted ▸ h.ends_lt
      obtain ⟨later, hlater⟩ := chained_cons_eq cost pair rest
      have hfits : (RankPlan.chained cost 0 none (pair :: rest)).Fits s c.size 0 :=
        RankPlan.fits_chained hends (by simp)
      rw [hlater] at hfits
      have hcount : 2 + later.flatten.length = stride cost * (pair :: rest).length := by
        rw [← RankPlan.length_flatten_chained cost 0 none, hlater, List.flatten_cons,
          List.length_append]
        rfl
      have hfirst := runOn_issueRound_known h.rank_lt hinside (hends pair List.mem_cons_self)
        (hlast dep rfl)
      have hrest := runOn_issue_from h.rank_lt howner ((pair.round [.existing dep]).map
        (·.place c (c.member ex.rank) (s.opsAt (c.member ex.rank)).length)) later hfits.2
      simp only [Pair.round, List.length_map, List.length_cons, List.length_nil, Nat.zero_add,
        Nat.reduceAdd] at hfirst hrest
      simp only [sequential, runOn_bind, h.pairs_eq, hlisted, runOn_check_ok, issue, hlater,
        Option.map_some, Option.toList_some, Pair.round, List.foldlM_cons, hfirst, hrest,
        runOn_pure, hcount, getLast?_names]
      rfl

/-- A sequential exchange whose handle is not there even then. -/
theorem runOn_sequential_of_unknown (hinside : c.Inside s) (h : ex.Valid c.size) {dep : OpId}
    (hdep : ¬Known s (c.member ex.rank) 2 dep) {pair : Pair} {rest : List Pair}
    (hlisted : ex.listed = pair :: rest) (cost : Nat) :
    (sequential c ex (some dep) cost).runOn s =
      (.error (.refused (.unknownOp dep)), s.grow (c.member ex.rank) (pair.unlinked c)) := by
  obtain ⟨later, hlater⟩ := chained_cons_eq cost pair rest
  have hends := h.ends_lt pair (hlisted ▸ List.mem_cons_self)
  simp only [sequential, runOn_bind, h.pairs_eq, hlisted, runOn_check_ok, issue, hlater,
    Option.map_some, Option.toList_some, List.foldlM_cons,
    runOn_issueRound_unknown h.rank_lt hinside hends hdep]

/-- The loop stops at the same place. -/
theorem runOn_sequentialLoop_of_unknown (hinside : c.Inside s) (h : ex.Valid c.size) {dep : OpId}
    (hdep : ¬Known s (c.member ex.rank) 2 dep) {pair : Pair} {rest : List Pair}
    (hlisted : ex.listed = pair :: rest) (cost : Nat) :
    (sequentialLoop c ex (some dep) cost).runOn s =
      (.error (.refused (.unknownOp dep)), s.grow (c.member ex.rank) (pair.unlinked c)) := by
  have hpair : ex.listed[0]? = some pair := by rw [hlisted, List.getElem?_cons_zero]
  have hcreate := runOn_createPair hinside h hpair []
  rw [Schedule.grow_nil, List.nil_append] at hcreate
  have hlink := runOn_linkPair_unknown (hinside _ (c.member_mem h.rank_lt))
    ⟨.send (c.member pair.destination) pair.sendSize pair.tag, []⟩
    ⟨.recv (c.member pair.source) pair.recvSize pair.tag, []⟩ hdep
  simp only [sequentialLoop, eachPair, runOn_bind, h.pairs_eq, hlisted, runOn_check_ok,
    List.length_cons, List.range_succ_eq_map, List.foldlM_cons, chainTurn, hcreate, hlink,
    Pair.unlinked]

/-- What a sequential exchange can do: be refused with its lists, be carried out, or stop at its
handle. -/
inductive Runs (ex : Exchange) (c : Communicator) (s : Schedule) (last : Option OpId)
    (cost : Nat) : Except Failure (Option OpId) × Schedule → Prop where
  | refused {error : Error} (h : ex.pairs c.size = .error error) :
      Runs ex c s last cost (.error (.refused error), s)
  | linked (h : ex.Valid c.size) (hlast : ∀ dep ∈ last, Known s (c.member ex.rank) 2 dep) :
      Runs ex c s last cost
        (.ok (left (c.member ex.rank) (s.opsAt (c.member ex.rank)).length
            (stride cost * ex.listed.length) last),
          s.grow (c.member ex.rank)
            ((RankPlan.chained cost 0 (last.map .existing) ex.listed).opsOn c (c.member ex.rank)
              (s.opsAt (c.member ex.rank)).length))
  | idle (h : ex.Valid c.size) (hnil : ex.listed = []) : Runs ex c s last cost (.ok last, s)
  | stopped (h : ex.Valid c.size) {dep : OpId} (hlast : last = some dep)
      (hdep : ¬Known s (c.member ex.rank) 2 dep) {pair : Pair} {rest : List Pair}
      (hlisted : ex.listed = pair :: rest) :
      Runs ex c s last cost
        (.error (.refused (.unknownOp dep)), s.grow (c.member ex.rank) (pair.unlinked c))

theorem runs_sequential (hinside : c.Inside s) (ex : Exchange) (last : Option OpId) (cost : Nat) :
    ex.Runs c s last cost ((sequential c ex last cost).runOn s) ∧
      (sequentialLoop c ex last cost).runOn s = (sequential c ex last cost).runOn s := by
  cases hpairs : ex.pairs c.size with
  | error error =>
    rw [runOn_sequential_refused hpairs]
    refine ⟨.refused hpairs, ?_⟩
    simp [sequentialLoop, eachPair, runOn_bind, hpairs]
  | ok pairs =>
    have h : ex.Valid c.size := valid_iff.2 ⟨pairs, hpairs⟩
    by_cases hlast : ∀ dep ∈ last, Known s (c.member ex.rank) 2 dep
    · rw [runOn_sequentialLoop_of_known hinside h hlast, runOn_sequential_of_known hinside h hlast]
      exact ⟨.linked h hlast, rfl⟩
    · push Not at hlast
      obtain ⟨dep, hsome, hdep⟩ := hlast
      obtain rfl : last = some dep := hsome
      cases hlisted : ex.listed with
      | nil =>
        rw [runOn_sequential_nil h hlisted]
        refine ⟨.idle h hlisted, ?_⟩
        simp only [sequentialLoop, eachPair, runOn_bind, h.pairs_eq, runOn_check_ok, hlisted]
        rfl
      | cons pair rest =>
        rw [runOn_sequentialLoop_of_unknown hinside h hdep hlisted,
          runOn_sequential_of_unknown hinside h hdep hlisted]
        exact ⟨.stopped h rfl hdep hlisted, rfl⟩

/-- What an operation requires once a rank has grown, it required before, or it is new. -/
theorem mem_requiresOf_grow {owner : Nat} (howner : owner < s.rankCount) {ops : List Op}
    {id dep : OpId} (h : dep ∈ (s.grow owner ops).requiresOf id) :
    dep ∈ s.requiresOf id ∨ ∃ position op, id = ⟨owner, (s.opsAt owner).length + position⟩ ∧
      ops[position]? = some op ∧ dep ∈ op.requires := by
  obtain ⟨rank, index⟩ := id
  rw [Schedule.requiresOf, Schedule.op?_eq] at h
  rw [Schedule.requiresOf, Schedule.op?_eq]
  by_cases hrank : rank = owner
  · subst hrank
    by_cases hold : index < (s.opsAt rank).length
    · rw [Schedule.opsAt_grow_self howner, List.getElem?_append_left hold] at h
      exact Or.inl h
    · obtain ⟨position, rfl⟩ := Nat.exists_eq_add_of_le (Nat.le_of_not_lt hold)
      rw [Schedule.opsAt_grow_self howner, List.getElem?_append_right (Nat.le_add_right _ _),
        Nat.add_sub_cancel_left] at h
      cases hop : ops[position]? with
      | none => simp [hop] at h
      | some op => exact Or.inr ⟨position, op, rfl, hop, by simpa [hop] using h⟩
  · rw [Schedule.opsAt_grow_of_ne s hrank] at h
    exact Or.inl h

/-- Where pairs wait for earlier ones, only a handle can make an operation require itself, and only
if it names nothing yet. -/
theorem requires_self_of_pairs {owner cost : Nat} (howner : owner < s.rankCount) {plan : RankPlan}
    {waits : Nat → List Wait} {pairs : List Pair} {last : Option OpId}
    (hplan : plan.flatten = pairOps cost waits waits 0 pairs)
    (hwaits : ∀ k, ∀ wait ∈ waits k,
      (∃ earlier < stride cost * k, wait = .own earlier) ∨ ∃ dep ∈ last, wait = .existing dep)
    {id : OpId}
    (h : id ∈ (s.grow owner (plan.opsOn c owner (s.opsAt owner).length)).requiresOf id) :
    id ∈ s.requiresOf id ∨ id ∈ last ∧ s.op? id = none ∧ pairs ≠ [] := by
  rcases mem_requiresOf_grow howner h with hold | ⟨position, op, rfl, hop, hself⟩
  · exact Or.inl hold
  rw [RankPlan.opsOn, List.getElem?_map, Option.map_eq_some_iff] at hop
  obtain ⟨planned, hget, rfl⟩ := hop
  obtain ⟨wait, hwait, hresolve⟩ := Planned.mem_requires_place.1 hself
  rw [hplan, getElem?_pairOps] at hget
  have hmissing := s.op?_of_le owner position
  -- An earlier operation of the plan is another one.
  have hother : ∀ earlier < position, wait ≠ .own earlier := by
    rintro earlier hlt rfl
    simp only [Wait.resolve, OpId.mk.injEq, true_and] at hresolve
    omega
  have hhandle : ∀ k, pairs ≠ [] → wait ∈ waits k → stride cost * k ≤ position →
      ⟨owner, (s.opsAt owner).length + position⟩ ∈ last ∧
        s.op? ⟨owner, (s.opsAt owner).length + position⟩ = none ∧ pairs ≠ [] := by
    intro k hpairs hmem hle
    rcases hwaits k wait hmem with ⟨earlier, hlt, hown⟩ | ⟨dep, hdep, rfl⟩
    · exact absurd hown (hother earlier (by omega))
    · exact ⟨hresolve ▸ hdep, hmissing, hpairs⟩
  cases hget with
  | @send k pair hpair =>
    exact Or.inr (hhandle k (by rintro rfl; cases hpair) hwait (Nat.le_refl _))
  | @recv k pair hpair =>
    exact Or.inr (hhandle k (by rintro rfl; cases hpair) hwait (Nat.le_succ _))
  | @compute k pair hpair hcost =>
    exact absurd (List.mem_singleton.1 hwait) (hother _ (by omega))

theorem requires_self_of_chained {owner cost : Nat} (howner : owner < s.rankCount)
    {last : Option OpId} {pairs : List Pair} {id : OpId}
    (h : id ∈ (s.grow owner ((RankPlan.chained cost 0 (last.map .existing) pairs).opsOn c owner
      (s.opsAt owner).length)).requiresOf id) :
    id ∈ s.requiresOf id ∨ id ∈ last ∧ s.op? id = none ∧ pairs ≠ [] := by
  have hplan := RankPlan.flatten_chained_from cost (last.map .existing)
    (fun k => if k = 0 then (last.map Wait.existing).toList else [.own (stride cost * k - 1)])
    pairs 0 (if_pos rfl) fun j hj => if_neg (Nat.ne_of_gt hj)
  refine requires_self_of_pairs howner hplan (fun k wait hwait => ?_) h
  by_cases hk : k = 0
  · rw [if_pos hk, Option.mem_toList] at hwait
    obtain ⟨dep, hdep, rfl⟩ := Option.map_eq_some_iff.1 hwait
    exact Or.inr ⟨dep, hdep, rfl⟩
  · rw [if_neg hk] at hwait
    have hpos := Nat.mul_pos (stride_pos cost) (Nat.pos_of_ne_zero hk)
    exact Or.inl ⟨_, Nat.sub_one_lt (Nat.ne_of_gt hpos), List.mem_singleton.1 hwait⟩

/-- Accepting a name that its first pair is about to take makes that operation wait for itself. -/
theorem requires_self_of_upcoming (howner : c.member ex.rank < s.rankCount) {cost : Nat}
    {dep : OpId} (hlisted : ex.listed ≠ [])
    (hdep : dep = ex.upcoming c s 0 ∨ dep = ex.upcoming c s 1) :
    dep ∈ (s.grow (c.member ex.rank)
      ((RankPlan.chained cost 0 (some (.existing dep)) ex.listed).opsOn c (c.member ex.rank)
        (s.opsAt (c.member ex.rank)).length)).requiresOf dep := by
  obtain ⟨pair, rest, hpairs⟩ := List.exists_cons_of_ne_nil hlisted
  obtain ⟨later, hlater⟩ := chained_cons_eq cost pair rest
  rw [hpairs, hlater, Schedule.requiresOf, Schedule.op?_eq]
  rcases hdep with rfl | rfl <;>
    simp [upcoming, Schedule.opsAt_grow_self howner, RankPlan.opsOn, Pair.round, Planned.place,
      Wait.resolve, Op.waitFor]

theorem Unmet.known_iff {dep : OpId} (h : ex.Unmet c s dep) :
    Known s (c.member ex.rank) 2 dep ↔ dep = ex.upcoming c s 0 ∨ dep = ex.upcoming c s 1 := by
  rw [known_two_iff, h.missing]
  exact or_iff_right Bool.false_ne_true

theorem clean_unchanged (s : Schedule) (result : Except Failure (Option OpId)) :
    Clean s (result, s) :=
  ⟨fun _ _ => rfl, fun _ h => h⟩

/-- Pairs that wait for earlier ones only are added cleanly. -/
theorem clean_of_pairs {owner : Nat} (howner : owner < s.rankCount) (handle : Option OpId)
    {plan : RankPlan} {waits : Nat → List Wait} {pairs : List Pair}
    (hplan : plan.flatten = pairOps 0 waits waits 0 pairs)
    (hwaits : ∀ k, ∀ wait ∈ waits k, ∃ earlier < stride 0 * k, wait = .own earlier) :
    Clean s (.ok handle, s.grow owner (plan.opsOn c owner (s.opsAt owner).length)) where
  undone := fun _ hfailed => nomatch hfailed
  irreflexive := by
    intro id hself
    have hearlier : ∀ k, ∀ wait ∈ waits k, (∃ earlier < stride 0 * k, wait = .own earlier) ∨
        ∃ dep ∈ (none : Option OpId), wait = .existing dep :=
      fun k wait hwait => Or.inl (hwaits k wait hwait)
    rcases requires_self_of_pairs howner hplan hearlier hself with hold | ⟨hnone, -⟩
    · exact hold
    · cases hnone

theorem clean_parallel (hinside : c.Inside s) (ex : Exchange) :
    Clean s ((parallel c ex).runOn s) := by
  cases hpairs : ex.pairs c.size with
  | error error =>
    rw [runOn_parallel_refused hpairs]
    exact clean_unchanged s _
  | ok pairs =>
    have h : ex.Valid c.size := valid_iff.2 ⟨pairs, hpairs⟩
    rw [runOn_parallel hinside h]
    exact clean_of_pairs (hinside _ (c.member_mem h.rank_lt)) _ (RankPlan.flatten_parallel _)
      fun _ _ hwait => nomatch hwait

theorem clean_windowed (hinside : c.Inside s) (ex : Exchange) (window : Nat) :
    Clean s ((windowed c ex window).runOn s) := by
  by_cases hwindow : window = 0
  · have hrun : (windowed c ex window).runOn s = (.error (.refused .zeroWindow), s) := by
      simp [windowed, hwindow, runOn_bind]
    exact hrun ▸ clean_unchanged s _
  cases hpairs : ex.pairs c.size with
  | error error =>
    rw [runOn_windowed_refused hpairs hwindow]
    exact clean_unchanged s _
  | ok pairs =>
    have h : ex.Valid c.size := valid_iff.2 ⟨pairs, hpairs⟩
    rw [runOn_windowed hinside h hwindow]
    exact clean_of_pairs (hinside _ (c.member_mem h.rank_lt)) _ (RankPlan.flatten_windowed _ _)
      (RankPlan.windowWaits_earlier hwindow)

/-- A sequential exchange is clean but for a handle that names nothing. -/
theorem Runs.clean {last : Option OpId} {cost : Nat}
    {result : Except Failure (Option OpId) × Schedule} (hinside : c.Inside s)
    (hruns : ex.Runs c s last cost result) (hlast : ∀ dep ∈ last, ¬ex.Unmet c s dep) :
    Clean s result := by
  cases hruns with
  | refused h => exact clean_unchanged s _
  | idle h hnil => exact clean_unchanged s _
  | linked h hknown =>
    refine ⟨fun _ hfailed => (nomatch hfailed), fun id hself => ?_⟩
    rcases requires_self_of_chained (hinside _ (c.member_mem h.rank_lt)) hself with
      hold | ⟨hid, hmissing, hpairs⟩
    · exact hold
    · exact absurd ⟨h, hpairs, hmissing⟩ (hlast id hid)
  | @stopped h dep hsome hdep pair rest hlisted =>
    refine absurd ⟨h, hlisted ▸ List.cons_ne_nil pair rest, ?_⟩ (hlast dep hsome)
    rw [← Option.not_isSome_iff_eq_none]
    exact fun hold => hdep (Or.inl hold)

/-- What becomes of a handle that names nothing. -/
theorem Runs.of_unmet {dep : OpId} {cost : Nat}
    {result : Except Failure (Option OpId) × Schedule} (hinside : c.Inside s)
    (hruns : ex.Runs c s (some dep) cost result) (h : ex.Unmet c s dep) :
    if dep = ex.upcoming c s 0 ∨ dep = ex.upcoming c s 1 then
      (∃ handle, result.1 = .ok handle) ∧ dep ∈ result.2.requiresOf dep ∧
        ∀ id, id ∈ result.2.requiresOf id → id ∈ s.requiresOf id ∨ id = dep
    else ∃ pair ∈ ex.listed.head?, result =
      (.error (.refused (.unknownOp dep)), s.grow (c.member ex.rank) (pair.unlinked c)) := by
  have hrefused : ∀ error, ex.pairs c.size ≠ .error error := fun error hpairs => by
    rw [h.valid.pairs_eq] at hpairs
    cases hpairs
  cases hruns with
  | refused hpairs => exact absurd hpairs (hrefused _)
  | idle _ hnil => exact absurd hnil h.nonempty
  | linked hvalid hknown =>
    have howner := hinside _ (c.member_mem hvalid.rank_lt)
    have hdep := h.known_iff.1 (hknown dep rfl)
    rw [if_pos hdep]
    refine ⟨⟨_, rfl⟩, requires_self_of_upcoming howner h.nonempty hdep, fun id hself => ?_⟩
    refine (requires_self_of_chained howner hself).imp_right fun hid => ?_
    exact (Option.mem_some_iff.1 hid.1).symm
  | @stopped hvalid other hsome hother pair rest hlisted =>
    obtain rfl : dep = other := Option.some.inj hsome
    rw [if_neg fun hdep => hother (h.known_iff.2 hdep)]
    exact ⟨pair, by rw [hlisted]; rfl, rfl⟩

/-- Whatever an exchange fails for leaves the schedule as it was, but for a handle that names
nothing. Such a handle is refused with the first pair left behind, unless it is the name that one
half of this pair is about to take; then the exchange is carried out, and that half waits for
itself. In no other way does an operation come to require itself. -/
theorem handle_decides (hinside : c.Inside s) (ex : Exchange) (last : Option OpId)
    (cost window : Nat) :
    ((sequentialLoop c ex last cost).runOn s = (sequential c ex last cost).runOn s ∧
      (parallelLoop c ex).runOn s = (parallel c ex).runOn s ∧
      (windowedLoop c ex window).runOn s = (windowed c ex window).runOn s) ∧
    Clean s ((parallel c ex).runOn s) ∧ Clean s ((windowed c ex window).runOn s) ∧
    ((∀ dep ∈ last, ¬ex.Unmet c s dep) → Clean s ((sequential c ex last cost).runOn s)) ∧
    ∀ dep ∈ last, ex.Unmet c s dep →
      if dep = ex.upcoming c s 0 ∨ dep = ex.upcoming c s 1 then
        (∃ handle, ((sequential c ex last cost).runOn s).1 = .ok handle) ∧
          dep ∈ ((sequential c ex last cost).runOn s).2.requiresOf dep ∧
          ∀ id, id ∈ ((sequential c ex last cost).runOn s).2.requiresOf id →
            id ∈ s.requiresOf id ∨ id = dep
      else ∃ pair ∈ ex.listed.head?, (sequential c ex last cost).runOn s =
        (.error (.refused (.unknownOp dep)), s.grow (c.member ex.rank) (pair.unlinked c)) := by
  obtain ⟨hruns, hloop⟩ := runs_sequential hinside ex last cost
  refine ⟨⟨hloop, runOn_parallelLoop hinside, runOn_windowedLoop hinside window⟩,
    clean_parallel hinside ex, clean_windowed hinside ex window, hruns.clean hinside, ?_⟩
  rintro dep hdep hunmet
  obtain rfl : last = some dep := hdep
  exact hruns.of_unmet hinside hunmet

theorem handle_decides_two :
    (Communicator.world 2).Inside (.idle 2) ∧
      ∃ pair ∈ (Exchange.mk 0 [1] [1] [4] [4] 2).listed.head?,
        (sequential (.world 2) ⟨0, [1], [1], [4], [4], 2⟩ (some ⟨0, 7⟩) 0).runOn (.idle 2) =
          (.error (.refused (.unknownOp ⟨0, 7⟩)),
            (Schedule.idle 2).grow 0 (pair.unlinked (.world 2))) := by
  have hinside := Communicator.inside_world 2
  have hvalid : (Exchange.mk 0 [1] [1] [4] [4] 2).Valid (Communicator.world 2).size :=
    valid_iff.2 ⟨_, rfl⟩
  have hdecides := handle_decides hinside ⟨0, [1], [1], [4], [4], 2⟩ (some ⟨0, 7⟩) 0 1
  have hstops := hdecides.2.2.2.2 ⟨0, 7⟩ rfl ⟨hvalid, List.cons_ne_nil _ _, rfl⟩
  rw [if_neg (by decide)] at hstops
  exact ⟨hinside, hstops⟩

/-- A handle that names nothing leaves a pair behind, and one that names the pair's own send is
accepted. -/
theorem handle_slips_two :
    (sequential (.world 2) ⟨0, [1], [1], [4], [4], 2⟩ (some ⟨0, 7⟩) 0).runOn (.idle 2) =
        (.error (.refused (.unknownOp ⟨0, 7⟩)),
          ⟨[[⟨.send 1 4 2, []⟩, ⟨.recv 1 4 2, []⟩], []]⟩) ∧
      (sequential (.world 2) ⟨0, [1], [1], [4], [4], 2⟩ (some ⟨0, 0⟩) 0).runOn (.idle 2) =
        (.ok (some ⟨0, 1⟩),
          ⟨[[⟨.send 1 4 2, [⟨0, 0⟩]⟩, ⟨.recv 1 4 2, [⟨0, 0⟩]⟩], []]⟩) :=
  ⟨rfl, rfl⟩

end Exchange
end Collectives
