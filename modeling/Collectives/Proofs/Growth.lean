import Collectives.Schedule
import Mathlib.Algebra.GroupWithZero.Nat
import Mathlib.Data.Finset.Dedup

/-!
# Growing schedules

The operations of a schedule by rank and by name. A schedule grows at the ends of its ranks only, so
what a name means stays as it is, and adding a dependency changes one operation.
-/

namespace Collectives

private theorem modify_congr {α : Type} {xs : List α} {i : Nat} {f g : α → α}
    (h : ∀ x, xs[i]? = some x → f x = g x) : xs.modify i f = xs.modify i g := by
  apply List.ext_getElem?
  intro j
  simp only [List.getElem?_modify]
  by_cases hj : i = j
  · subst hj
    cases hx : xs[i]? with
    | none => rfl
    | some x => simp [h x hx]
  · simp [hj]

theorem modify_middle {α : Type} (front : List α) (x : α) (rest : List α) (f : α → α) :
    (front ++ x :: rest).modify front.length f = front ++ f x :: rest := by
  induction front with
  | nil => rfl
  | cons y front ih => simp [ih]

namespace Schedule

/-- The operations of `rank`; none for a rank outside. -/
def opsAt (s : Schedule) (rank : Nat) : List Op := s.ranks.getD rank []

/-- The schedule with more operations for `rank`. -/
def grow (s : Schedule) (rank : Nat) (ops : List Op) : Schedule :=
  ⟨s.ranks.modify rank (· ++ ops)⟩

def update (s : Schedule) (id : OpId) (f : Op → Op) : Schedule :=
  ⟨s.ranks.modify id.rank (·.modify id.index f)⟩

/-- The names of `count` operations of `owner` from the position `base` on. -/
def names (owner base count : Nat) : List OpId := (List.range' base count).map (OpId.mk owner)

@[simp] theorem length_names (owner base count : Nat) :
    (names owner base count).length = count := by
  simp [names]

@[simp] theorem names_zero (owner base : Nat) : names owner base 0 = [] := rfl

theorem names_succ (owner base count : Nat) :
    names owner base (count + 1) = ⟨owner, base⟩ :: names owner (base + 1) count := by
  simp [names, List.range'_succ]

theorem names_append (owner base count more : Nat) :
    names owner base count ++ names owner (base + count) more =
      names owner base (count + more) := by
  simp [names, ← List.map_append]

theorem nodup_names (owner base count : Nat) : (names owner base count).Nodup :=
  List.Nodup.map (fun _ _ heq => congrArg OpId.index heq) List.nodup_range'

theorem names_getElem? {owner base count position : Nat} (h : position < count) :
    (names owner base count)[position]? = some ⟨owner, base + position⟩ := by
  simp [names, h]

theorem opsAt_of_rankCount_le {s : Schedule} {rank : Nat} (h : s.rankCount ≤ rank) :
    s.opsAt rank = [] := by
  have hout : s.ranks.length ≤ rank := h
  rw [opsAt, List.getD_eq_getElem?_getD, List.getElem?_eq_none hout, Option.getD_none]

@[simp] theorem rankCount_grow (s : Schedule) (rank : Nat) (ops : List Op) :
    (s.grow rank ops).rankCount = s.rankCount := by
  simp [grow, rankCount]

theorem opsAt_grow_self {s : Schedule} {rank : Nat} (h : rank < s.rankCount) (ops : List Op) :
    (s.grow rank ops).opsAt rank = s.opsAt rank ++ ops := by
  have hr : rank < s.ranks.length := h
  simp [grow, opsAt, List.getElem?_eq_getElem hr]

theorem opsAt_grow_of_ne (s : Schedule) {rank other : Nat} (h : other ≠ rank) (ops : List Op) :
    (s.grow rank ops).opsAt other = s.opsAt other := by
  simp [grow, opsAt, List.getD_eq_getElem?_getD, Ne.symm h]

@[simp] theorem grow_nil (s : Schedule) (rank : Nat) : s.grow rank [] = s := by
  have h : (fun ops : List Op => ops ++ []) = id := by
    funext ops
    simp
  rw [grow, h, List.modify_id]

theorem grow_grow (s : Schedule) (rank : Nat) (ops more : List Op) :
    (s.grow rank ops).grow rank more = s.grow rank (ops ++ more) := by
  simp [grow, List.modify_modify_eq, Function.comp_def]

theorem op?_eq (s : Schedule) (id : OpId) : s.op? id = (s.opsAt id.rank)[id.index]? := by
  cases h : s.ranks[id.rank]? <;> simp [op?, opsAt, List.getD_eq_getElem?_getD, h]

theorem isSome_op? (s : Schedule) (id : OpId) :
    (s.op? id).isSome = true ↔ id.index < (s.opsAt id.rank).length := by
  simp [op?_eq]

/-- Behind its operations a rank has none. -/
theorem op?_of_le (s : Schedule) (owner position : Nat) :
    s.op? ⟨owner, (s.opsAt owner).length + position⟩ = none := by
  rw [op?_eq, List.getElem?_eq_none (Nat.le_add_right _ _)]

/-- Operations that exist stay as they are when a schedule grows. -/
theorem op?_grow {s : Schedule} {id : OpId} {op : Op} (h : s.op? id = some op) (rank : Nat)
    (ops : List Op) : (s.grow rank ops).op? id = some op := by
  rw [op?_eq] at h ⊢
  have hi := (List.getElem?_eq_some_iff.1 h).1
  by_cases hr : id.rank = rank
  · subst hr
    have hin : id.rank < s.rankCount := by
      by_contra hout
      simp [opsAt, List.getD_eq_getElem?_getD,
        List.getElem?_eq_none (show s.ranks.length ≤ id.rank by simpa [rankCount] using hout)] at hi
    rw [opsAt_grow_self hin, List.getElem?_append_left hi, h]
  · rw [opsAt_grow_of_ne s hr, h]

/-- A schedule grows by the given operations only. -/
theorem op?_grow_cases {s : Schedule} {owner : Nat} {ops : List Op} {id : OpId} {op : Op}
    (h : (s.grow owner ops).op? id = some op) : s.op? id = some op ∨ op ∈ ops := by
  rw [op?_eq] at h ⊢
  by_cases hid : id.rank = owner
  · rcases Nat.lt_or_ge owner s.rankCount with howner | howner
    · rw [hid, opsAt_grow_self howner] at h
      rw [hid]
      rcases Nat.lt_or_ge id.index (s.opsAt owner).length with hold | hnew
      · rw [List.getElem?_append_left hold] at h
        exact Or.inl h
      · rw [List.getElem?_append_right hnew] at h
        exact Or.inr (List.mem_of_getElem? h)
    · rw [hid, opsAt_of_rankCount_le (by rwa [rankCount_grow])] at h
      cases h
  · rw [opsAt_grow_of_ne s hid] at h
    exact Or.inl h

theorem isSome_op?_grow {s : Schedule} {id : OpId} (h : (s.op? id).isSome = true) (rank : Nat)
    (ops : List Op) : ((s.grow rank ops).op? id).isSome = true := by
  obtain ⟨op, hop⟩ := Option.isSome_iff_exists.1 h
  rw [op?_grow hop]
  rfl

@[simp] theorem isSome_op?_update (s : Schedule) (id other : OpId) (f : Op → Op) :
    ((s.update id f).op? other).isSome = (s.op? other).isSome := by
  by_cases h : id.rank = other.rank
  · cases hs : s.ranks[other.rank]? <;> simp [update, op?, h, hs, List.getElem?_modify]
  · simp [update, op?, h]

theorem update_id (s : Schedule) (name : OpId) : s.update name (fun op => op) = s := by
  have hops : (fun ops : List Op => ops.modify name.index (fun op => op)) = id := by
    funext ops
    exact List.modify_id name.index ops
  rw [update, hops, List.modify_id]

theorem update_update (s : Schedule) (id : OpId) (f g : Op → Op) :
    (s.update id f).update id g = s.update id (g ∘ f) := by
  simp [update, List.modify_modify_eq, Function.comp_def]

/-- Changing an operation among those that a schedule grew by. -/
theorem update_grow (s : Schedule) (owner : Nat) (front : List Op) (op : Op) (rest : List Op)
    (f : Op → Op) :
    (s.grow owner (front ++ op :: rest)).update
        ⟨owner, (s.opsAt owner).length + front.length⟩ f =
      s.grow owner (front ++ f op :: rest) := by
  simp only [grow, update, List.modify_modify_eq]
  congr 1
  apply modify_congr
  intro ops hops
  have hlen : (s.opsAt owner).length = ops.length := by
    simp [opsAt, List.getD_eq_getElem?_getD, hops]
  have hmid := modify_middle (ops ++ front) op rest f
  simpa [hlen] using hmid

theorem append_eq_grow {s : Schedule} {owner : Nat} (h : owner < s.rankCount) (action : Action) :
    s.append owner action =
      .ok (⟨owner, (s.opsAt owner).length⟩, s.grow owner [⟨action, []⟩]) := by
  have hops : s.ranks[owner]? = some (s.opsAt owner) := by
    have hr : owner < s.ranks.length := h
    simp [opsAt, List.getElem?_eq_getElem hr]
  rw [append_of_getElem? hops, grow, List.modify_eq_set_getElem?]
  simp [hops]

theorem require_eq_update {s : Schedule} {id dep : OpId} (hid : (s.op? id).isSome = true)
    (hdep : (s.op? dep).isSome = true) : s.require id dep = .ok (s.update id (·.waitFor dep)) :=
  require_of_op? hid hdep

theorem edgeCount_eq_sum (s : Schedule) :
    s.edgeCount = (s.ranks.map fun ops => (ops.map (·.requires.length)).sum).sum := by
  rw [edgeCount, List.length_flatMap, List.map_flatten, List.sum_flatten, List.map_map]
  rfl

def ids (s : Schedule) : Finset OpId :=
  ((List.range s.rankCount).flatMap fun rank => names rank 0 (s.opsAt rank).length).toFinset

theorem mem_ids {s : Schedule} {id : OpId} : id ∈ s.ids ↔ (s.op? id).isSome = true := by
  rw [ids, List.mem_toFinset, List.mem_flatMap, isSome_op?]
  constructor
  · rintro ⟨rank, -, hid⟩
    obtain ⟨index, hindex, rfl⟩ := List.mem_map.1 hid
    simpa using hindex
  · intro hindex
    have hrank : id.rank < s.rankCount := by
      by_contra hout
      rw [opsAt_of_rankCount_le (Nat.le_of_not_lt hout)] at hindex
      exact Nat.not_lt_zero _ hindex
    exact ⟨id.rank, List.mem_range.2 hrank, List.mem_map.2 ⟨id.index, by simpa using hindex, rfl⟩⟩

end Schedule
end Collectives
