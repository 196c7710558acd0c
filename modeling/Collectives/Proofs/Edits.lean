import Collectives.Proofs.Partners
import Collectives.Proofs.Relocation

/-!
# Changing what a schedule has grown by

A change of every operation, with its name at hand. What leaves the operations of a schedule alone
changes only what a rank got behind them, and the pairs of a plan are changed pair by pair.
-/

namespace Collectives

theorem mapIdx_const {α β : Type} (f : α → β) (xs : List α) :
    xs.mapIdx (fun _ => f) = xs.map f := by
  apply List.ext_getElem?
  intro index
  rw [List.getElem?_mapIdx, List.getElem?_map]

namespace Schedule

/-- The schedule with every operation changed, which may depend on the name. -/
def mapOps (s : Schedule) (f : OpId → Op → Op) : Schedule :=
  ⟨s.ranks.mapIdx fun rank ops => ops.mapIdx fun index op => f ⟨rank, index⟩ op⟩

/-- `made` without the dependencies on operations in `cut` that `s` does not have. -/
def withoutAdded (s made : Schedule) (cut : OpId → Bool) : Schedule :=
  made.mapOps fun id op =>
    { op with requires := op.requires.filter fun dep => dep ∈ s.requiresOf id || !cut dep }

variable {s : Schedule} {f : OpId → Op → Op}

@[simp] theorem rankCount_mapOps (s : Schedule) (f : OpId → Op → Op) :
    (s.mapOps f).rankCount = s.rankCount :=
  List.length_mapIdx

theorem opsAt_mapOps (s : Schedule) (f : OpId → Op → Op) (rank : Nat) :
    (s.mapOps f).opsAt rank = (s.opsAt rank).mapIdx fun index op => f ⟨rank, index⟩ op := by
  rw [opsAt, opsAt, mapOps, List.getD_eq_getElem?_getD, List.getD_eq_getElem?_getD,
    List.getElem?_mapIdx]
  cases s.ranks[rank]? <;> rfl

theorem mapIdx_opsAt (hf : ∀ id op, s.op? id = some op → f id op = op) (rank : Nat) :
    (s.opsAt rank).mapIdx (fun index op => f ⟨rank, index⟩ op) = s.opsAt rank := by
  apply List.ext_getElem?
  intro index
  rw [List.getElem?_mapIdx]
  cases hop : (s.opsAt rank)[index]? with
  | none => rfl
  | some op => exact congrArg some (hf ⟨rank, index⟩ op (by rw [op?_eq, hop]))

/-- What leaves every operation alone leaves the schedule alone. -/
theorem mapOps_eq_self (hf : ∀ id op, s.op? id = some op → f id op = op) : s.mapOps f = s :=
  ext_opsAt (rankCount_mapOps s f) fun rank => by rw [opsAt_mapOps, mapIdx_opsAt hf]

theorem mapOps_grow {owner : Nat} (howner : owner < s.rankCount)
    (hf : ∀ id op, s.op? id = some op → f id op = op) (ops : List Op) :
    (s.grow owner ops).mapOps f =
      s.grow owner (ops.mapIdx fun index op => f ⟨owner, (s.opsAt owner).length + index⟩ op) := by
  apply ext_opsAt (by rw [rankCount_mapOps, rankCount_grow, rankCount_grow])
  intro rank
  rw [opsAt_mapOps]
  by_cases hrank : rank = owner
  · subst hrank
    rw [opsAt_grow_self howner, opsAt_grow_self howner, List.mapIdx_append, mapIdx_opsAt hf]
    simp only [Nat.add_comm]
  · rw [opsAt_grow_of_ne s hrank, opsAt_grow_of_ne s hrank, mapIdx_opsAt hf]

/-- A change that leaves what is there alone and changes all that a rank gets behind it alike. -/
theorem mapOps_grow_new {owner : Nat} (howner : owner < s.rankCount)
    (hf : ∀ id op, s.op? id = some op → f id op = op) {g : Op → Op}
    (hg : ∀ id op, s.op? id = none → f id op = g op) (ops : List Op) :
    (s.grow owner ops).mapOps f = s.grow owner (ops.map g) := by
  have hnew : (fun position op => f ⟨owner, (s.opsAt owner).length + position⟩ op) =
      fun _ => g := by
    funext position op
    exact hg _ op (op?_of_le s owner position)
  rw [mapOps_grow howner hf, hnew, mapIdx_const]

/-- Cutting what was added leaves alone what was there. -/
theorem cut_eq_self (cut : OpId → Bool) {id : OpId} {op : Op} (hop : s.op? id = some op) :
    { op with requires := op.requires.filter fun dep => dep ∈ s.requiresOf id || !cut dep } =
      op := by
  have hkept : (op.requires.filter fun dep => dep ∈ s.requiresOf id || !cut dep) = op.requires := by
    rw [List.filter_eq_self]
    intro dep hdep
    rw [requiresOf_eq hop, decide_eq_true hdep, Bool.true_or]
  rw [hkept]

theorem withoutAdded_self (s : Schedule) (cut : OpId → Bool) : s.withoutAdded s cut = s :=
  mapOps_eq_self fun _ _ hop => cut_eq_self cut hop

theorem requiresOf_of_le {owner : Nat} (position : Nat) :
    s.requiresOf ⟨owner, (s.opsAt owner).length + position⟩ = [] := by
  rw [requiresOf, op?_of_le]
  rfl

end Schedule

/-- A change that takes what pairs wait for to what they wait for in another plan takes the
operations of the one to those of the other. -/
theorem mapIdx_pairOps {c : Communicator} {owner base : Nat} {waits others : Nat → List Wait}
    {pairs : List Pair} {f : Nat → Op → Op}
    (hf : ∀ k < pairs.length, ∀ half < 2, ∀ action,
      f (2 * k + half) (Planned.place c owner base ⟨action, waits k⟩) =
        Planned.place c owner base ⟨action, others k⟩) :
    ((pairOps 0 waits waits 0 pairs).map (·.place c owner base)).mapIdx f =
      (pairOps 0 others others 0 pairs).map (·.place c owner base) := by
  apply List.ext_getElem?
  intro position
  rw [List.getElem?_mapIdx, List.getElem?_map, List.getElem?_map]
  cases hget : (pairOps 0 waits waits 0 pairs)[position]? with
  | none =>
    have hout : (pairOps 0 others others 0 pairs)[position]? = none := by
      rw [List.getElem?_eq_none_iff, length_pairOps] at hget ⊢
      exact hget
    rw [hout]
    rfl
  | some planned =>
    rw [getElem?_pairOps] at hget
    cases hget with
    | @send k pair h =>
      have hk := (List.getElem?_eq_some_iff.1 h).1
      rw [getElem?_pairOps.2 (PairOp.send h)]
      exact congrArg some (hf k hk 0 (by decide) _)
    | @recv k pair h =>
      have hk := (List.getElem?_eq_some_iff.1 h).1
      rw [getElem?_pairOps.2 (PairOp.recv h)]
      exact congrArg some (hf k hk 1 (by decide) _)
    | compute h hcost => exact absurd rfl hcost

end Collectives
