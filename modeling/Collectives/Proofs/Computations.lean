import Collectives.Proofs.ChainedRounds
import Collectives.Proofs.Edits
import Collectives.Proofs.SideBySide

/-!
# Computations between receives

A positive cost puts a computation behind every receive of an allreduce. Without the computations,
with the other operations counted anew and with what waited for a computation waiting for its
receive, it is the allreduce without a cost. The names move from a stride of three to a stride of
two, across the border of the phases as within them.
-/

namespace Collectives

def Action.isCalc : Action → Bool
  | .calc _ => true
  | _ => false

namespace Schedule

/-- Whether there is a computation of this name. -/
def isCalc (s : Schedule) (id : OpId) : Bool := (s.op? id).any (·.action.isCalc)

/-- What to wait for in place of an operation when there are to be no computations: a computation
that requires one operation stands for that operation. -/
def bypass (s : Schedule) (id : OpId) : OpId :=
  match s.op? id with
  | some ⟨.calc _, [dep]⟩ => dep
  | _ => id

/-- The name of an operation when only those that are no computations are counted. -/
def recount (s : Schedule) (id : OpId) : OpId :=
  ⟨id.rank, ((s.opsAt id.rank).take id.index).countP (!·.action.isCalc)⟩

/-- The operations that are no computations, counted anew. What waited for a computation waits for
what the computation required. -/
def withoutCalcs (s : Schedule) : Schedule :=
  ⟨s.ranks.map fun ops => (ops.filter (!·.action.isCalc)).map fun op =>
    { op with requires := op.requires.map fun dep => s.recount (s.bypass dep) }⟩

/-- Every computation has the given cost, stands right behind a receive of its rank and requires
this receive and nothing else; and every receive has one computation. -/
structure ComputesBehind (s : Schedule) (cost : Nat) : Prop where
  computation : ∀ id op, s.op? id = some op → op.action.isCalc = true →
    op.action = .calc cost ∧ ∃ index recv, id.index = index + 1 ∧
      s.op? ⟨id.rank, index⟩ = some recv ∧ recv.action.isRecv = true ∧
      op.requires = [⟨id.rank, index⟩]
  receive : ∀ id op, s.op? id = some op → op.action.isRecv = true →
    ∃! behind, s.isCalc behind = true ∧ s.requiresOf behind = [id]

/-- On every rank there is a chain of the given cost and nothing else. -/
def Chains (s : Schedule) (cost : Nat) (on : Nat → Communicator) (pairsOf : Nat → List Pair) :
    Prop :=
  ∀ owner, s.opsAt owner =
    (RankPlan.chained cost 0 none (pairsOf owner)).opsOn (on owner) owner 0

end Schedule

section Pairs

variable {cost : Nat} {sendWaits recvWaits : Nat → List Wait}

/-- Without the computations, pairs are as many operations as pairs of no cost. -/
theorem filter_pairOps (first : Nat) (pairs : List Pair) :
    (pairOps cost sendWaits recvWaits first pairs).filter (!·.action.isCalc) =
      pairOps 0 sendWaits recvWaits first pairs := by
  induction pairs generalizing first with
  | nil => rfl
  | cons pair pairs ih =>
    have hblock : (pairBlock cost sendWaits recvWaits first pair).filter (!·.action.isCalc) =
        pairBlock 0 sendWaits recvWaits first pair := by
      by_cases hcost : cost = 0 <;> simp [pairBlock, hcost, Action.isCalc]
    rw [pairOps, List.filter_append, hblock, ih, pairOps]

/-- Up to the receive of a pair there are two operations of each pair before it, and its send. -/
theorem countP_take_recv {pairs : List Pair} {k : Nat} {pair : Pair} (h : pairs[k]? = some pair) :
    ((pairOps cost sendWaits recvWaits 0 pairs).take (stride cost * k + 1)).countP
      (!·.action.isCalc) = 2 * k + 1 := by
  have hk := (List.getElem?_eq_some_iff.1 h).1
  have hsend := getElem?_pairOps.2 (PairOp.send h : PairOp cost sendWaits recvWaits pairs _ _)
  have hbefore : ((pairOps cost sendWaits recvWaits 0 pairs).take (stride cost * k)).countP
      (!·.action.isCalc) = 2 * k := by
    rw [take_pairOps, List.countP_eq_length_filter, filter_pairOps, length_pairOps,
      List.length_take_of_le hk.le]
    rfl
  rw [List.take_add_one, hsend, List.countP_append, hbefore]
  rfl

end Pairs

theorem Action.isCalc_mapPeer (action : Action) (f : Nat → Nat) :
    (action.mapPeer f).isCalc = action.isCalc := by
  cases action <;> rfl

theorem Action.isRecv_mapPeer (action : Action) (f : Nat → Nat) :
    (action.mapPeer f).isRecv = action.isRecv := by
  cases action <;> rfl

/-- An operation is a computation if it was planned as one. -/
theorem Planned.isCalc_comp_place (c : Communicator) (owner base : Nat) :
    (fun op : Op => !op.action.isCalc) ∘ (Planned.place c owner base) =
      fun planned => !planned.action.isCalc := by
  funext planned
  rw [Function.comp_apply, action_place, Action.isCalc_mapPeer]

namespace Schedule

variable {s t : Schedule} {cost : Nat} {on : Nat → Communicator} {pairsOf : Nat → List Pair}

theorem opsAt_withoutCalcs (s : Schedule) (owner : Nat) :
    s.withoutCalcs.opsAt owner = ((s.opsAt owner).filter (!·.action.isCalc)).map fun op =>
      { op with requires := op.requires.map fun dep => s.recount (s.bypass dep) } := by
  rw [opsAt, opsAt, withoutCalcs, List.getD_eq_getElem?_getD, List.getD_eq_getElem?_getD,
    List.getElem?_map]
  cases s.ranks[owner]? <;> rfl

namespace Chains

theorem opsAt_eq (h : s.Chains cost on pairsOf) (owner : Nat) :
    s.opsAt owner = (pairOps cost (RankPlan.chainWaits cost) (RankPlan.chainWaits cost) 0
      (pairsOf owner)).map (·.place (on owner) owner 0) := by
  rw [h owner, RankPlan.opsOn, RankPlan.flatten_chained]

theorem op?_of_pairOp (h : s.Chains cost on pairsOf) {owner position : Nat} {planned : Planned}
    (hop : PairOp cost (RankPlan.chainWaits cost) (RankPlan.chainWaits cost) (pairsOf owner)
      position planned) :
    s.op? ⟨owner, position⟩ = some (planned.place (on owner) owner 0) := by
  rw [op?_eq, h.opsAt_eq, List.getElem?_map, getElem?_pairOps.2 hop]
  rfl

theorem exists_pairOp (h : s.Chains cost on pairsOf) {id : OpId} {op : Op}
    (hop : s.op? id = some op) :
    ∃ planned, PairOp cost (RankPlan.chainWaits cost) (RankPlan.chainWaits cost) (pairsOf id.rank)
      id.index planned ∧ op = planned.place (on id.rank) id.rank 0 := by
  rw [op?_eq, h.opsAt_eq, List.getElem?_map, Option.map_eq_some_iff] at hop
  obtain ⟨planned, hget, rfl⟩ := hop
  exact ⟨planned, getElem?_pairOps.1 hget, rfl⟩

/-- The computation of a pair requires the receive of the pair. -/
theorem op?_calc (h : s.Chains cost on pairsOf) (hcost : cost ≠ 0) {owner k : Nat} {pair : Pair}
    (hpair : (pairsOf owner)[k]? = some pair) :
    s.op? ⟨owner, 3 * k + 2⟩ = some ⟨.calc cost, [⟨owner, 3 * k + 1⟩]⟩ := by
  rw [h.op?_of_pairOp (.compute hpair hcost)]
  simp [Planned.place, Action.mapPeer, Wait.resolve, Op.waitFor]

/-- The receive of a pair is counted behind two operations of each pair before it and its send. -/
theorem recount_recv (h : s.Chains cost on pairsOf) (hcost : cost ≠ 0) {owner k : Nat}
    {pair : Pair} (hpair : (pairsOf owner)[k]? = some pair) :
    s.recount ⟨owner, 3 * k + 1⟩ = ⟨owner, 2 * k + 1⟩ := by
  have hstride : stride cost = 3 := if_neg hcost
  have hcount := @countP_take_recv cost (RankPlan.chainWaits cost) (RankPlan.chainWaits cost) _ _ _
    hpair
  rw [hstride] at hcount
  rw [recount, h.opsAt_eq, ← List.map_take, List.countP_map, Planned.isCalc_comp_place, hcount]

/-- What the pair `k` waits for, renamed, is what it waits for without a cost. -/
theorem resolve_chainWaits (h : s.Chains cost on pairsOf) (hcost : cost ≠ 0) {owner k : Nat}
    (hk : k < (pairsOf owner).length) :
    (RankPlan.chainWaits cost k).map (fun wait => s.recount (s.bypass (wait.resolve owner 0))) =
      (RankPlan.chainWaits 0 k).map (·.resolve owner 0) := by
  unfold RankPlan.chainWaits
  by_cases hfirst : k = 0
  · rw [if_pos hfirst, if_pos hfirst]
    rfl
  · obtain ⟨before, rfl⟩ := Nat.exists_eq_succ_of_ne_zero hfirst
    have hpair : (pairsOf owner)[before]? = some (pairsOf owner)[before] :=
      List.getElem?_eq_getElem (Nat.lt_of_succ_lt hk)
    have hlast : Wait.resolve owner 0 (.own (stride cost * (before + 1) - 1)) =
        ⟨owner, 3 * before + 2⟩ := by
      rw [show stride cost = 3 from if_neg hcost, Wait.resolve, OpId.mk.injEq]
      omega
    have hlast' : Wait.resolve owner 0 (.own (stride 0 * (before + 1) - 1)) =
        ⟨owner, 2 * before + 1⟩ := by
      rw [show stride 0 = 2 from rfl, Wait.resolve, OpId.mk.injEq]
      omega
    have hbypass : s.bypass ⟨owner, 3 * before + 2⟩ = ⟨owner, 3 * before + 1⟩ := by
      rw [bypass, h.op?_calc hcost hpair]
    rw [if_neg hfirst, if_neg hfirst, List.map_singleton, List.map_singleton, hlast, hlast',
      hbypass, h.recount_recv hcost hpair]

theorem place_chainWaits (c : Communicator) (owner k : Nat) (action : Action) :
    Planned.place c owner 0 ⟨action, RankPlan.chainWaits cost k⟩ =
      ⟨action.mapPeer c.member, (RankPlan.chainWaits cost k).map (·.resolve owner 0)⟩ := by
  apply Planned.place_eq
  unfold RankPlan.chainWaits
  split
  · exact List.nodup_nil
  · exact List.nodup_singleton _

/-- Without its computations a chain is the chain of no cost. -/
theorem withoutCalcs_eq (h : s.Chains cost on pairsOf) (hcost : cost ≠ 0)
    (ht : t.Chains 0 on pairsOf) (hcount : s.rankCount = t.rankCount) : s.withoutCalcs = t := by
  apply ext_opsAt
  · rw [← hcount]
    exact List.length_map _
  intro owner
  rw [opsAt_withoutCalcs, h.opsAt_eq, List.filter_map, Planned.isCalc_comp_place, filter_pairOps,
    ht.opsAt_eq, ← mapIdx_const]
  refine mapIdx_pairOps fun k hk half hhalf action => ?_
  simp only [place_chainWaits, List.map_map]
  exact congrArg (Op.mk _) (h.resolve_chainWaits hcost hk)

/-- What is a computation in a chain is the computation of a pair. -/
theorem of_isCalc (h : s.Chains cost on pairsOf) {id : OpId} {op : Op} (hop : s.op? id = some op)
    (hcalc : op.action.isCalc = true) :
    cost ≠ 0 ∧ ∃ k pair, (pairsOf id.rank)[k]? = some pair ∧ id.index = 3 * k + 2 := by
  obtain ⟨rank, index⟩ := id
  obtain ⟨planned, hplanned, rfl⟩ := h.exists_pairOp hop
  rw [Planned.action_place, Action.isCalc_mapPeer] at hcalc
  cases hplanned with
  | send hpair => cases hcalc
  | recv hpair => cases hcalc
  | compute hpair hcost => exact ⟨hcost, _, _, hpair, rfl⟩

theorem of_isRecv (h : s.Chains cost on pairsOf) {id : OpId} {op : Op} (hop : s.op? id = some op)
    (hrecv : op.action.isRecv = true) :
    ∃ k pair, (pairsOf id.rank)[k]? = some pair ∧ id.index = stride cost * k + 1 := by
  obtain ⟨rank, index⟩ := id
  obtain ⟨planned, hplanned, rfl⟩ := h.exists_pairOp hop
  rw [Planned.action_place, Action.isRecv_mapPeer] at hrecv
  cases hplanned with
  | send hpair => cases hrecv
  | recv hpair => exact ⟨_, _, hpair, rfl⟩
  | compute hpair hcost => cases hrecv

theorem computesBehind (h : s.Chains cost on pairsOf) (hcost : cost ≠ 0) :
    s.ComputesBehind cost where
  computation := by
    rintro ⟨rank, index⟩ op hop hcalc
    obtain ⟨-, k, pair, hpair, rfl⟩ := h.of_isCalc hop hcalc
    rw [h.op?_calc hcost hpair] at hop
    obtain rfl := Option.some.inj hop
    have hstride : stride cost = 3 := if_neg hcost
    have hrecv := h.op?_of_pairOp (.recv hpair)
    rw [hstride] at hrecv
    refine ⟨rfl, 3 * k + 1, _, rfl, hrecv, ?_, rfl⟩
    rw [Planned.action_place]
    rfl
  receive := by
    rintro ⟨rank, index⟩ op hop hrecv
    obtain ⟨k, pair, hpair, rfl⟩ := h.of_isRecv hop hrecv
    have hstride : stride cost = 3 := if_neg hcost
    have hcalc := h.op?_calc hcost hpair
    rw [hstride]
    refine ⟨⟨rank, 3 * k + 2⟩, ⟨?_, requiresOf_eq hcalc⟩, ?_⟩
    · rw [isCalc, hcalc]
      rfl
    · rintro ⟨other, position⟩ ⟨hbehind, hrequires⟩
      obtain ⟨op', hop', hcalc'⟩ := Option.any_eq_true _ _ |>.1 hbehind
      obtain ⟨-, k', pair', hpair', rfl⟩ := h.of_isCalc hop' hcalc'
      rw [requiresOf_eq (h.op?_calc hcost hpair')] at hrequires
      obtain ⟨rfl, hsame⟩ := OpId.mk.inj (List.singleton_inj.1 hrequires)
      rw [OpId.mk.injEq]
      exact ⟨rfl, by omega⟩

end Chains

/-- The chains of a world stand on its ranks. -/
theorem chains_onWorld (ranks cost : Nat) (pairsOf : Nat → List Pair) :
    (onWorld ranks fun rank => .chained cost 0 none (pairsOf rank)).Chains cost
      (fun _ => .world ranks) fun owner => if owner < ranks then pairsOf owner else [] := by
  intro owner
  dsimp only
  by_cases howner : owner < ranks
  · rw [opsAt_onWorld _ howner, if_pos howner]
  · rw [opsAt_onWorld_of_le _ (Nat.le_of_not_lt howner), if_neg howner]
    rfl

/-- Blocks that are filled with the same plans have these plans on their ranks. -/
theorem opsAt_filled_plans {count size : Nat} (hsize : 0 < size) {plans : Nat → RankPlan}
    {level : Nat → Nat → Nat} (hc : RankPlan.Coherent size plans level) (owner : Nat) :
    (filled count size (fun _ => .onWorld size plans) count).opsAt owner =
      if owner / size < count then
        (plans (owner % size)).opsOn (.block size (owner / size)) owner 0
      else [] := by
  have hrank := Nat.mod_lt owner hsize
  rw [opsAt_filled hsize (Nat.le_refl count)]
  congr 1
  -- On an idle schedule a plan is relocated to a block by moving it there.
  have hidle : ∀ rank < size, (idle 0).opsAt (owner / size * size + rank) = [] :=
    fun _ _ => opsAt_idle 0 _
  have hshift : ∀ op ∈ (onWorld size plans).opsAt (owner % size),
      op.shift (owner / size * size) = op.relocate (.block size (owner / size)) (idle 0) := by
    intro op hop
    obtain ⟨hpeer, hrequires⟩ := within_onWorld hc hrank op hop
    exact (Op.relocate_block hidle hpeer fun dep hdep => (hrequires dep hdep).trans_lt hrank).symm
  have hrelocate := @RankPlan.relocate_opsOn (.block size (owner / size)) (idle 0) plans level
    (by simpa using hc) (owner % size) (by simpa using hrank)
  rw [Communicator.size_block, Communicator.member_block hrank, Nat.div_add_mod', opsAt_idle,
    List.length_nil] at hrelocate
  rw [List.map_congr_left hshift, opsAt_onWorld plans hrank, hrelocate]

theorem chains_filled {count size : Nat} (hsize : 0 < size) (cost : Nat)
    (pairsOf : Nat → List Pair) {level : Nat → Nat → Nat}
    (hc : RankPlan.Coherent size (fun rank => .chained cost 0 none (pairsOf rank)) level) :
    (filled count size (fun _ => .onWorld size fun rank => .chained cost 0 none (pairsOf rank))
      count).Chains cost (fun owner => .block size (owner / size))
      fun owner => if owner / size < count then pairsOf (owner % size) else [] := by
  intro owner
  rw [opsAt_filled_plans hsize hc]
  dsimp only
  split
  · rfl
  · rfl

end Schedule

namespace Allreduce

theorem ring_eq (r : Reduction) (ranks : Nat) :
    Ring.allreduce r ranks = r.secondTag.map fun secondTag => Ring.plan r secondTag ranks := by
  rw [Ring.allreduce]
  cases r.secondTag <;> rfl

/-- An allreduce is refused for every cost alike, or it consists of chains of the same pairs. -/
theorem chained_or_refused (algorithm : Algorithm) (r : Reduction) (ranks : Nat) :
    (∃ error, ∀ cost, pattern algorithm { r with cost } ranks = .error error) ∨
      ∃ pairsOf : Nat → List Pair, ∀ cost, pattern algorithm { r with cost } ranks =
        .ok fun rank => .chained cost 0 none (pairsOf rank) := by
  have hsecond : ∀ cost, Reduction.secondTag { r with cost } = r.secondTag := fun _ => rfl
  have hring : (∃ error, ∀ cost, Ring.allreduce { r with cost } ranks = .error error) ∨
      ∃ pairsOf : Nat → List Pair, ∀ cost, Ring.allreduce { r with cost } ranks =
        .ok fun rank => .chained cost 0 none (pairsOf rank) := by
    simp only [ring_eq, hsecond]
    cases r.secondTag with
    | error error => exact Or.inl ⟨error, fun _ => rfl⟩
    | ok secondTag =>
      exact Or.inr ⟨fun rank =>
        Ring.rounds (Ring.predecessor rank ranks) (Ring.successor rank ranks) r.size ranks r.tag ++
          Ring.rounds (Ring.successor rank ranks) (Ring.predecessor rank ranks) r.size ranks
            secondTag, fun _ => rfl⟩
  cases hfor : algorithm.forSize r.size with
  | ring => simpa only [pattern, hfor] using hring
  | bySize => simpa only [pattern, hfor] using hring
  | recursiveDoubling =>
    simp only [pattern, hfor, Butterfly.allreduce_eq, hsecond]
    by_cases hpow : Butterfly.isPowerOfTwo ranks
    · simp only [if_pos hpow]
      cases r.secondTag with
      | error error => exact Or.inl ⟨error, fun _ => rfl⟩
      | ok secondTag =>
        exact Or.inr ⟨fun rank => Butterfly.halvings rank ranks r.size r.tag ++
          (Butterfly.halvings rank ranks r.size secondTag).reverse, fun _ => rfl⟩
    · simp only [if_neg hpow]
      exact Or.inl ⟨_, fun _ => rfl⟩

/-- The outcome `made` of an allreduce of the given cost has its computations behind its receives,
and without them it is the outcome `free` of the allreduce without a cost. -/
structure Inserts (cost : Nat) (made free : Except Failure Schedule) : Prop where
  erased : free = made.map Schedule.withoutCalcs
  behind : ∀ s, made = .ok s → s.ComputesBehind cost

theorem inserts_of_error (cost : Nat) (failure : Failure) :
    Inserts cost (.error failure) (.error failure) :=
  ⟨rfl, nofun⟩

theorem inserts_of_chains {s t : Schedule} {cost : Nat} {on : Nat → Communicator}
    {pairsOf : Nat → List Pair} (hs : s.Chains cost on pairsOf) (ht : t.Chains 0 on pairsOf)
    (hcost : cost ≠ 0) (hcount : s.rankCount = t.rankCount) : Inserts cost (.ok s) (.ok t) where
  erased := congrArg Except.ok (hs.withoutCalcs_eq hcost ht hcount).symm
  behind := by
    rintro _ ⟨⟩
    exact hs.computesBehind hcost

variable {algorithm : Algorithm} {r : Reduction} {ranks : Nat} {pairsOf : Nat → List Pair}

theorem coherent_chained (h : ∀ cost, pattern algorithm { r with cost } ranks =
      .ok fun rank => .chained cost 0 none (pairsOf rank)) (cost : Nat) :
    ∃ level, RankPlan.Coherent ranks (fun rank => .chained cost 0 none (pairsOf rank)) level :=
  Builder.coherent_allreduce algorithm { r with cost } ranks _ (h cost)

theorem inserts_single (algorithm : Algorithm) {r : Reduction} (hcost : r.cost ≠ 0)
    (ranks : Nat) :
    Inserts r.cost ((pattern algorithm r).schedule ranks)
      ((pattern algorithm { r with cost := 0 }).schedule ranks) := by
  by_cases hranks : ranks = 0
  · rw [Pattern.schedule, Pattern.schedule, if_pos hranks, if_pos hranks]
    exact inserts_of_error r.cost _
  have hpos := Nat.pos_of_ne_zero hranks
  rcases chained_or_refused algorithm r ranks with ⟨error, herror⟩ | ⟨pairsOf, hplans⟩
  · rw [Pattern.schedule_eq_error hpos (herror r.cost), Pattern.schedule_eq_error hpos (herror 0)]
    exact inserts_of_error r.cost _
  · obtain ⟨level, hc⟩ := coherent_chained hplans r.cost
    obtain ⟨level', hc'⟩ := coherent_chained hplans 0
    rw [Pattern.schedule_eq hpos (hplans r.cost) hc, Pattern.schedule_eq hpos (hplans 0) hc']
    refine inserts_of_chains (Schedule.chains_onWorld ranks r.cost pairsOf)
      (Schedule.chains_onWorld ranks 0 pairsOf) hcost ?_
    rw [Schedule.rankCount_onWorld, Schedule.rankCount_onWorld]

theorem inserts_grouped (algorithm : Algorithm) {r : Reduction} (hcost : r.cost ≠ 0)
    (count size : Nat) :
    Inserts r.cost (Groups.allreduce algorithm count size r)
      (Groups.allreduce algorithm count size { r with cost := 0 }) := by
  by_cases htotal : count * size = 0
  · have hrefused : ∀ cost, Groups.allreduce algorithm count size { r with cost } =
        .error (.refused .emptyCommunicator) := by
      intro cost
      simp [Groups.allreduce, Groups.schedule, Groups.onBlocks, Partition.blocks, htotal, bind,
        Except.bind]
    rw [hrefused 0, show Groups.allreduce algorithm count size r = _ from hrefused r.cost]
    exact inserts_of_error r.cost _
  have hcount : 0 < count := Nat.pos_of_ne_zero fun h => htotal (by rw [h, Nat.zero_mul])
  have hsize : 0 < size := Nat.pos_of_ne_zero fun h => htotal (by rw [h, Nat.mul_zero])
  rcases chained_or_refused algorithm r size with ⟨error, herror⟩ | ⟨pairsOf, hplans⟩
  · have hrefused : ∀ cost, Groups.allreduce algorithm count size { r with cost } =
        .error (.refused error) :=
      fun cost => Groups.schedule_eq_error hcount hsize (herror cost)
    rw [hrefused 0, show Groups.allreduce algorithm count size r = _ from hrefused r.cost]
    exact inserts_of_error r.cost _
  · have hmade : ∀ cost, Groups.allreduce algorithm count size { r with cost } =
        .ok (.filled count size (fun _ => .onWorld size fun rank =>
          .chained cost 0 none (pairsOf rank)) count) := by
      intro cost
      obtain ⟨level, hc⟩ := coherent_chained hplans cost
      exact Groups.schedule_eq_ok hcount hsize
        (fun _ => Builder.coherent_allreduce algorithm { r with cost })
        fun _ _ => Pattern.schedule_eq hsize (hplans cost) hc
    obtain ⟨level, hc⟩ := coherent_chained hplans r.cost
    obtain ⟨level', hc'⟩ := coherent_chained hplans 0
    rw [hmade 0, show Groups.allreduce algorithm count size r = _ from hmade r.cost]
    refine inserts_of_chains (Schedule.chains_filled hsize r.cost pairsOf hc)
      (Schedule.chains_filled hsize 0 pairsOf hc') hcost ?_
    rw [Schedule.rankCount_filled, Schedule.rankCount_filled]

/-- A cost only inserts computations. An allreduce, on one communicator or in groups, succeeds with
a cost if it does without. Every computation then has that cost, stands behind a receive and waits
for this receive alone, and there is one for every receive. Without the computations, with the other
operations counted anew and what waited for a computation waiting for its receive, it is the
allreduce without a cost. -/
theorem cost_inserts (algorithm : Algorithm) {r : Reduction} (hcost : r.cost ≠ 0)
    (ranks count size : Nat) :
    Inserts r.cost ((pattern algorithm r).schedule ranks)
        ((pattern algorithm { r with cost := 0 }).schedule ranks) ∧
      Inserts r.cost (Groups.allreduce algorithm count size r)
        (Groups.allreduce algorithm count size { r with cost := 0 }) :=
  ⟨inserts_single algorithm hcost ranks, inserts_grouped algorithm hcost count size⟩

/-- A ring of two ranks: the computation behind the last receive of the first phase goes, and what
waited for it, the second phase, waits for the receive. -/
theorem cost_inserts_two :
    let r : Reduction := ⟨64, 0, 10⟩
    r.cost ≠ 0 ∧ ∃ made, (pattern .ring r).schedule 2 = .ok made ∧
      made.opsAt 0 = [⟨.send 1 32 0, []⟩, ⟨.recv 1 32 0, []⟩, ⟨.calc 10, [⟨0, 1⟩]⟩,
        ⟨.send 1 32 1, [⟨0, 2⟩]⟩, ⟨.recv 1 32 1, [⟨0, 2⟩]⟩, ⟨.calc 10, [⟨0, 4⟩]⟩] ∧
      made.ComputesBehind 10 ∧
      (pattern .ring { r with cost := 0 }).schedule 2 = .ok made.withoutCalcs ∧
      made.withoutCalcs.opsAt 0 = [⟨.send 1 32 0, []⟩, ⟨.recv 1 32 0, []⟩,
        ⟨.send 1 32 1, [⟨0, 1⟩]⟩, ⟨.recv 1 32 1, [⟨0, 1⟩]⟩] := by
  intro r
  have hcost : r.cost ≠ 0 := by decide
  obtain ⟨⟨herased, hbehind⟩, -⟩ := cost_inserts .ring hcost 2 1 1
  have hmade : (pattern .ring r).schedule 2 = .ok ⟨[
      [⟨.send 1 32 0, []⟩, ⟨.recv 1 32 0, []⟩, ⟨.calc 10, [⟨0, 1⟩]⟩,
        ⟨.send 1 32 1, [⟨0, 2⟩]⟩, ⟨.recv 1 32 1, [⟨0, 2⟩]⟩, ⟨.calc 10, [⟨0, 4⟩]⟩],
      [⟨.send 0 32 0, []⟩, ⟨.recv 0 32 0, []⟩, ⟨.calc 10, [⟨1, 1⟩]⟩,
        ⟨.send 0 32 1, [⟨1, 2⟩]⟩, ⟨.recv 0 32 1, [⟨1, 2⟩]⟩, ⟨.calc 10, [⟨1, 4⟩]⟩]]⟩ := by
    decide
  rw [hmade] at herased
  exact ⟨hcost, _, hmade, rfl, hbehind _ hmade, herased, by decide⟩

end Allreduce
end Collectives
