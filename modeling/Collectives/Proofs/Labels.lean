import Collectives.Proofs.Calls
import Collectives.Proofs.ChainedRounds

/-!
# Labels

A message is told from others by its ends and its tag. In every collective but the ring, the sends
of a rank differ in their destination or their tag, and so do its receives in their source or their
tag.
-/

namespace Collectives

/-- Whether an action sends or receives, its peer and its tag; none for a computation. -/
def Action.label? : Action → Option (Bool × Nat × Tag)
  | .send peer _ tag => some (true, peer, tag)
  | .recv peer _ tag => some (false, peer, tag)
  | .calc _ => none

namespace Schedule

def label? (s : Schedule) (id : OpId) : Option (Bool × Nat × Tag) :=
  (s.op? id).bind (·.action.label?)

/-- One of the two operations has to come before the other. -/
def Ordered (s : Schedule) (x y : OpId) : Prop :=
  Relation.TransGen s.Causes x y ∨ Relation.TransGen s.Causes y x

theorem label?_send {s : Schedule} {id : OpId} {peer : Nat} {tag : Tag} :
    s.label? id = some (true, peer, tag) ↔
      ∃ size requires, s.op? id = some ⟨.send peer size tag, requires⟩ := by
  rw [label?, Option.bind_eq_some_iff]
  constructor
  · rintro ⟨⟨action, requires⟩, hop, hlabel⟩
    rcases action with ⟨destination, size, label⟩ | _ | _
    · obtain ⟨rfl, rfl⟩ := by simpa [Action.label?] using hlabel
      exact ⟨size, requires, hop⟩
    · simp [Action.label?] at hlabel
    · simp [Action.label?] at hlabel
  · rintro ⟨size, requires, hop⟩
    exact ⟨_, hop, rfl⟩

theorem label?_recv {s : Schedule} {id : OpId} {peer : Nat} {tag : Tag} :
    s.label? id = some (false, peer, tag) ↔
      ∃ size requires, s.op? id = some ⟨.recv peer size tag, requires⟩ := by
  rw [label?, Option.bind_eq_some_iff]
  constructor
  · rintro ⟨⟨action, requires⟩, hop, hlabel⟩
    rcases action with _ | ⟨source, size, label⟩ | _
    · simp [Action.label?] at hlabel
    · obtain ⟨rfl, rfl⟩ := by simpa [Action.label?] using hlabel
      exact ⟨size, requires, hop⟩
    · simp [Action.label?] at hlabel
  · rintro ⟨size, requires, hop⟩
    exact ⟨_, hop, rfl⟩

end Schedule

namespace RankPlan

/-- The labels of the operations of a plan, in order. -/
def labels (plan : RankPlan) : List (Bool × Nat × Tag) :=
  plan.flatten.filterMap (·.action.label?)

variable {ranks : Nat} {plans : Nat → RankPlan} {level : Nat → Nat → Nat}

/-- The label of an operation is that of the planned one. -/
theorem Coherent.label?_planned (hc : Coherent ranks plans level) {id : OpId}
    {label : Bool × Nat × Tag} (h : (Schedule.onWorld ranks plans).label? id = some label) :
    id.rank < ranks ∧ ∃ planned, (plans id.rank).flatten[id.index]? = some planned ∧
      planned.action.label? = some label := by
  obtain ⟨op, hop, hlabel⟩ := Option.bind_eq_some_iff.1 h
  obtain ⟨hrank, planned, hget, rfl⟩ := Schedule.exists_planned hop
  rw [Planned.action_place, Schedule.mapPeer_world fun peer hpeer =>
    (hc.peers id.rank hrank planned (List.mem_of_getElem? hget) peer hpeer).1] at hlabel
  exact ⟨hrank, planned, hget, hlabel⟩

/-- Where no plan has a label twice, no two operations of a rank have the same. -/
theorem Coherent.eq_of_label? (hc : Coherent ranks plans level)
    (hlabels : ∀ rank < ranks, (plans rank).labels.Nodup) {x y : OpId} {label : Bool × Nat × Tag}
    (hsame : x.rank = y.rank) (hx : (Schedule.onWorld ranks plans).label? x = some label)
    (hy : (Schedule.onWorld ranks plans).label? y = some label) : x = y := by
  obtain ⟨rank, i⟩ := x
  obtain ⟨rank', j⟩ := y
  obtain rfl : rank = rank' := hsame
  obtain ⟨hrank, planned, hi, hlabel⟩ := hc.label?_planned hx
  obtain ⟨-, planned', hj, hlabel'⟩ := hc.label?_planned hy
  have hdistinct := List.pairwise_filterMap.1 (hlabels rank hrank)
  obtain ⟨hilt, rfl⟩ := List.getElem?_eq_some_iff.1 hi
  obtain ⟨hjlt, rfl⟩ := List.getElem?_eq_some_iff.1 hj
  rcases Nat.lt_trichotomy i j with hlt | rfl | hlt
  · exact absurd rfl
      (List.pairwise_iff_getElem.1 hdistinct i j hilt hjlt hlt label hlabel label hlabel')
  · rfl
  · exact absurd rfl
      (List.pairwise_iff_getElem.1 hdistinct j i hjlt hilt hlt label hlabel' label hlabel)

end RankPlan

namespace Pair

/-- Pairs that differ in their destination or their tag, and in their source or their tag. -/
structure Distinct (pairs : List Pair) : Prop where
  sends : (pairs.map fun pair => (pair.destination, pair.tag)).Nodup
  recvs : (pairs.map fun pair => (pair.source, pair.tag)).Nodup

theorem distinct_shifts {ranks rank : Nat} {steps : List (Nat × Tag)} (hrank : rank < ranks)
    (hsteps : ∀ step ∈ steps, step.1 < ranks) (hnodup : steps.Nodup)
    (sizeOf : Nat → Nat → Nat) : Distinct (shifts sizeOf ranks steps rank) where
  sends := by
    rw [shifts, List.map_map]
    refine List.Nodup.map_on ?_ hnodup
    rintro ⟨distance, tag⟩ hstep ⟨distance', tag'⟩ hstep' heq
    have hahead : (rank + distance) % ranks = (rank + distance') % ranks := congrArg Prod.fst heq
    have hlt : distance < ranks := hsteps _ hstep
    have hlt' : distance' < ranks := hsteps _ hstep'
    have hcases := mod_cases (show rank + distance < 2 * ranks by omega)
    have hcases' := mod_cases (show rank + distance' < 2 * ranks by omega)
    exact Prod.ext (by omega) (congrArg Prod.snd heq :)
  recvs := by
    rw [shifts, List.map_map]
    refine List.Nodup.map_on ?_ hnodup
    rintro ⟨distance, tag⟩ hstep ⟨distance', tag'⟩ hstep' heq
    have hbehind : (rank + ranks - distance) % ranks = (rank + ranks - distance') % ranks :=
      congrArg Prod.fst heq
    have hlt : distance < ranks := hsteps _ hstep
    have hlt' : distance' < ranks := hsteps _ hstep'
    have hcases := mod_cases (show rank + ranks - distance < 2 * ranks by omega)
    have hcases' := mod_cases (show rank + ranks - distance' < 2 * ranks by omega)
    exact Prod.ext (by omega) (congrArg Prod.snd heq :)

theorem distinct_flips {steps : List (Nat × Nat × Tag)} (rank : Nat)
    (hnodup : (steps.map fun step => (step.1, step.2.2)).Nodup) :
    Distinct (flips steps rank) := by
  have hpartners : (steps.map fun step => (rank ^^^ 2 ^ step.1, step.2.2)).Nodup := by
    rw [show (fun step : Nat × Nat × Tag => (rank ^^^ 2 ^ step.1, step.2.2)) =
      (fun key : Nat × Tag => (rank ^^^ 2 ^ key.1, key.2)) ∘ fun step => (step.1, step.2.2)
      from rfl, ← List.map_map]
    refine hnodup.map ?_
    rintro ⟨bit, tag⟩ ⟨bit', tag'⟩ heq
    obtain ⟨hpartner, rfl⟩ := Prod.mk.inj heq
    have hpow := congrArg (rank ^^^ ·) hpartner
    simp only [← Nat.xor_assoc, Nat.xor_self, Nat.zero_xor] at hpow
    rw [Nat.pow_right_injective (Nat.le_refl 2) hpow]
  constructor
  · simpa [flips, Function.comp_def] using hpartners
  · simpa [flips, Function.comp_def] using hpartners

end Pair

namespace RankPlan

theorem filterMap_label?_pairOps {cost : Nat} {sendWaits recvWaits : Nat → List Wait} (first : Nat)
    (pairs : List Pair) :
    (pairOps cost sendWaits recvWaits first pairs).filterMap (·.action.label?) =
      pairs.flatMap fun pair =>
        [(true, pair.destination, pair.tag), (false, pair.source, pair.tag)] := by
  induction pairs generalizing first with
  | nil => rfl
  | cons pair pairs ih =>
    rw [pairOps, List.filterMap_append, ih, List.flatMap_cons]
    by_cases hcost : cost = 0 <;> simp [pairBlock, hcost, Action.label?]

theorem nodup_labels_of_pairs {plan : RankPlan} {cost : Nat} {sendWaits recvWaits : Nat → List Wait}
    {pairs : List Pair} (hplan : plan.flatten = pairOps cost sendWaits recvWaits 0 pairs)
    (hpairs : Pair.Distinct pairs) : plan.labels.Nodup := by
  have hsends := List.pairwise_map.1 hpairs.sends
  have hrecvs := List.pairwise_map.1 hpairs.recvs
  rw [labels, hplan, filterMap_label?_pairOps, List.nodup_flatMap]
  refine ⟨by simp, (hsends.and hrecvs).imp ?_⟩
  rintro pair pair' ⟨hsend, hrecv⟩
  refine List.disjoint_left.2 ?_
  intro label hlabel hlabel'
  simp only [List.mem_cons, List.not_mem_nil, or_false] at hlabel hlabel'
  rcases hlabel with rfl | rfl
  · exact hsend (by simpa using hlabel')
  · exact hrecv (by simpa using hlabel')

end RankPlan

/-- No plan of the pattern has a label twice. -/
def Pattern.Unambiguous (pattern : Pattern) : Prop :=
  ∀ ranks plans, pattern ranks = .ok plans → ∀ rank < ranks, (plans rank).labels.Nodup

namespace Dissemination

theorem unambiguous (size : Nat) (tag : Tag) : (exchange size tag).Unambiguous := by
  rintro ranks plans h rank hrank
  cases h
  refine RankPlan.nodup_labels_of_pairs (flatten_plan size tag ranks rank)
    (Pair.distinct_shifts hrank ?_ ?_ _)
  · intro step hstep
    obtain ⟨distance, hdistance, rfl⟩ := List.mem_map.1 hstep
    exact (mem_distancesFrom hdistance).2
  · exact (nodup_distancesFrom 0 ranks).map fun _ _ heq => congrArg Prod.fst heq

end Dissemination

namespace Alltoall

theorem distinct_pairs {ranks rank : Nat} (hrank : rank < ranks) (sizeOf : Nat → Nat → Nat)
    (tag : Tag) : Pair.Distinct (pairs sizeOf tag ranks rank) := by
  rw [pairs_eq_shifts]
  refine Pair.distinct_shifts hrank ?_ ?_ sizeOf
  · simp only [offsets, List.map_map, List.mem_map, List.mem_range]
    rintro step ⟨offset, hoffset, rfl⟩
    simp only [Function.comp_apply]
    omega
  · rw [offsets, List.map_map]
    refine List.nodup_range.map fun offset offset' heq => ?_
    exact Nat.succ.inj (congrArg Prod.fst heq)

theorem unambiguous_windowed (request : Request) : (windowed request).Unambiguous := by
  intro ranks plans h rank hrank
  obtain ⟨-, rfl⟩ := plans_windowed h
  exact RankPlan.nodup_labels_of_pairs (RankPlan.flatten_windowed _ _) (distinct_pairs hrank _ _)

theorem unambiguous_balanced (request : Request) : (balanced request).Unambiguous := by
  intro ranks plans h rank hrank
  cases h
  exact RankPlan.nodup_labels_of_pairs (RankPlan.flatten_parallel _) (distinct_pairs hrank _ _)

theorem unambiguous_unbalanced (request : Request) (sizes : List (List Nat)) :
    (unbalanced request sizes).Unambiguous := by
  intro ranks plans h rank hrank
  obtain rfl := plans_unbalanced h
  exact RankPlan.nodup_labels_of_pairs (RankPlan.flatten_parallel _) (distinct_pairs hrank _ _)

end Alltoall

namespace Butterfly

theorem unambiguous (r : Reduction) : (allreduce r).Unambiguous := by
  intro ranks plans h rank hrank
  obtain ⟨k, secondTag, -, htag, rfl⟩ := exists_secondTag h
  have hphase : ∀ tag : Tag, ((List.range ranks.log2).map fun bit => (bit, tag)).Nodup :=
    fun tag => List.nodup_range.map fun _ _ heq => congrArg Prod.fst heq
  have hne := Reduction.tag_ne_of_secondTag htag
  refine RankPlan.nodup_labels_of_pairs (flatten_plan r secondTag ranks rank)
    (Pair.distinct_flips rank ?_)
  simp only [steps, List.map_append, List.map_reverse, List.map_map, Function.comp_def]
  refine (hphase r.tag).append (List.nodup_reverse.2 (hphase secondTag)) ?_
  rw [List.disjoint_left]
  intro key hfirst hsecond
  obtain ⟨bit, -, rfl⟩ := List.mem_map.1 hfirst
  obtain ⟨bit', -, heq⟩ := List.mem_map.1 (List.mem_reverse.1 hsecond)
  exact hne (congrArg Prod.snd heq).symm

end Butterfly

namespace Binomial

theorem unambiguous (size : Nat) (tag : Tag) (direction : Direction) :
    (tree size tag direction).Unambiguous := by
  rintro ranks plans h rank hrank
  cases h
  have hup : ∀ kind : Bool, ((parent? rank ranks).toList.map fun peer => (kind, peer, tag)).Nodup :=
    fun kind => by cases parent? rank ranks <;> simp
  have hdown : ∀ kind : Bool, ((children rank ranks).map fun peer => (kind, peer, tag)).Nodup :=
    fun kind => (nodup_children rank ranks).map fun _ _ heq => (Prod.mk.inj (Prod.mk.inj heq).2).1
  rw [RankPlan.labels, flatten_plan]
  cases direction with
  | reduce =>
    simp only [List.filterMap_append, List.filterMap_map, Function.comp_def, Action.label?,
      List.filterMap_eq_map']
    refine (hup true).append (hdown false) ?_
    simp [List.disjoint_left]
  | broadcast =>
    simp only [List.filterMap_append, List.filterMap_map, Function.comp_def, Action.label?,
      List.filterMap_eq_map']
    refine (hup false).append (hdown true) ?_
    simp [List.disjoint_left]

end Binomial
end Collectives
