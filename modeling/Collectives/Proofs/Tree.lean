import Collectives.Binomial
import Collectives.Proofs.Partners

/-!
# The binomial tree

Parents and children are inverse to each other, and every child lies at a higher power of two than
its parent. So a message has the level of its child's highest bit in a broadcast, and the opposite
in a reduction, and both directions are coherent.
-/

namespace Collectives

theorem lt_doublings {ranks step : Nat} (h : 2 ^ step < ranks) : step < doublings ranks := by
  have hpos := Nat.two_pow_pos step
  rw [doublings, if_neg (by omega), Nat.lt_succ_iff, Nat.le_log2 (by omega)]
  omega

namespace Binomial

theorem parent_neighbours {rank ranks step parent : Nat} :
    (neighbours rank ranks step).parent = some parent ↔
      (2 ^ step ≤ rank ∧ rank < 2 ^ (step + 1)) ∧ rank - 2 ^ step = parent := by
  simp only [neighbours, Nat.one_shiftLeft, Option.ite_none_right_eq_some, Option.some.injEq]

theorem child_neighbours {rank ranks step child : Nat} :
    (neighbours rank ranks step).child = some child ↔
      (rank < 2 ^ step ∧ rank + 2 ^ step < ranks) ∧ rank + 2 ^ step = child := by
  simp only [neighbours, Nat.one_shiftLeft, Option.ite_none_right_eq_some, Option.some.injEq]

theorem exists_step_of_parent? {rank ranks parent : Nat} (h : parent? rank ranks = some parent) :
    ∃ step, 2 ^ step ≤ rank ∧ rank < 2 ^ (step + 1) ∧ parent = rank - 2 ^ step := by
  obtain ⟨neighbour, hmem, hparent⟩ := List.exists_of_findSome?_eq_some h
  obtain ⟨step, -, rfl⟩ := List.mem_map.1 hmem
  obtain ⟨⟨hle, hlt⟩, rfl⟩ := parent_neighbours.1 hparent
  exact ⟨step, hle, hlt, rfl⟩

theorem parent?_eq_some {rank ranks parent : Nat} (hrank : rank < ranks) :
    parent? rank ranks = some parent ↔
      ∃ step, 2 ^ step ≤ rank ∧ rank < 2 ^ (step + 1) ∧ parent = rank - 2 ^ step := by
  constructor
  · exact exists_step_of_parent?
  · rintro ⟨step, hle, hlt, rfl⟩
    have hstep : neighbours rank ranks step ∈ steps rank ranks :=
      List.mem_map_of_mem (List.mem_range.2 (lt_doublings (by omega)))
    have hsome : (parent? rank ranks).isSome = true := by
      rw [parent?, List.findSome?_isSome_iff]
      exact ⟨_, hstep, Option.isSome_of_eq_some (parent_neighbours.2 ⟨⟨hle, hlt⟩, rfl⟩)⟩
    obtain ⟨parent, hparent⟩ := Option.isSome_iff_exists.1 hsome
    obtain ⟨step', hle', hlt', rfl⟩ := exists_step_of_parent? hparent
    have hrank0 : rank ≠ 0 := by
      have := Nat.two_pow_pos step
      omega
    obtain rfl : step = step' :=
      ((Nat.log2_eq_iff hrank0).2 ⟨hle, hlt⟩).symm.trans ((Nat.log2_eq_iff hrank0).2 ⟨hle', hlt'⟩)
    exact hparent

theorem mem_children {rank ranks child : Nat} :
    child ∈ children rank ranks ↔
      ∃ step, rank < 2 ^ step ∧ child = rank + 2 ^ step ∧ child < ranks := by
  simp only [children, List.mem_filterMap, steps, List.mem_map, List.mem_range]
  constructor
  · rintro ⟨-, ⟨step, -, rfl⟩, hchild⟩
    obtain ⟨⟨hlt, hin⟩, rfl⟩ := child_neighbours.1 hchild
    exact ⟨step, hlt, rfl, hin⟩
  · rintro ⟨step, hlt, rfl, hin⟩
    exact ⟨_, ⟨step, lt_doublings (by omega), rfl⟩, child_neighbours.2 ⟨⟨hlt, hin⟩, rfl⟩⟩

theorem nodup_children (rank ranks : Nat) : (children rank ranks).Nodup := by
  rw [children, steps, List.filterMap_map]
  refine List.Nodup.filterMap ?_ List.nodup_range
  intro step step' child h h'
  obtain ⟨-, hchild⟩ := child_neighbours.1 h
  obtain ⟨-, hchild'⟩ := child_neighbours.1 h'
  exact (Nat.pow_right_inj (by omega)).1 (show 2 ^ step = 2 ^ step' by omega)

/-- A child hangs below its parent and nowhere else. -/
theorem mem_children_iff_parent? {child parent ranks : Nat} (hchild : child < ranks) :
    child ∈ children parent ranks ↔ parent? child ranks = some parent := by
  rw [mem_children, parent?_eq_some hchild]
  constructor
  · rintro ⟨step, hlt, rfl, -⟩
    exact ⟨step, by omega, by rw [Nat.pow_succ]; omega, by omega⟩
  · rintro ⟨step, hle, hlt, rfl⟩
    rw [Nat.pow_succ] at hlt
    exact ⟨step, by omega, by omega, hchild⟩

theorem parent?_lt {rank ranks parent : Nat} (h : parent? rank ranks = some parent) :
    parent < rank := by
  obtain ⟨step, hle, -, rfl⟩ := exists_step_of_parent? h
  have := Nat.two_pow_pos step
  omega

/-- A child lies at a higher power of two than its parent. -/
theorem log2_lt_of_mem_children {rank ranks child : Nat} (h : child ∈ children rank ranks)
    (hrank : rank ≠ 0) : rank.log2 < child.log2 := by
  obtain ⟨step, hlt, rfl, -⟩ := mem_children.1 h
  have hlog : rank.log2 < step := (Nat.log2_lt hrank).2 hlt
  have hstep : step ≤ (rank + 2 ^ step).log2 := (Nat.le_log2 (by omega)).2 (by omega)
  omega

/-- The level of the message between two neighbours. -/
def edgeLevel (direction : Direction) (ranks a b : Nat) : Nat :=
  match direction with
  | .reduce => doublings ranks - (max a b).log2
  | .broadcast => (max a b).log2

theorem edgeLevel_comm (direction : Direction) (ranks a b : Nat) :
    edgeLevel direction ranks a b = edgeLevel direction ranks b a := by
  simp [edgeLevel, Nat.max_comm a b]

def levelOf (direction : Direction) (ranks rank : Nat) (planned : Planned) : Nat :=
  match planned.action.peer? with
  | some peer => edgeLevel direction ranks rank peer
  | none => 0

/-- The level of the operation at a position of the plan of a rank. -/
def level (size : Nat) (tag : Tag) (direction : Direction) (ranks rank position : Nat) : Nat :=
  ((plan size tag direction ranks rank).flatten[position]?).elim 0
    (levelOf direction ranks rank)

/-- What remains of a list without duplicates when one entry is looked for. -/
theorem filterMap_single {entries : List Nat} (h : entries.Nodup) (entry size : Nat) (p : Prop)
    [Decidable p] :
    (entries.filterMap fun x => if x = entry ∧ p then some size else none) =
      if entry ∈ entries ∧ p then [size] else [] := by
  induction entries with
  | nil => simp
  | cons x entries ih =>
    rw [List.nodup_cons] at h
    rw [List.filterMap_cons, ih h.2]
    by_cases hx : x = entry
    · subst hx
      by_cases hp : p <;> simp [hp, h.1]
    · simp [hx, Ne.symm hx]

section Plan

variable {size : Nat} {tag : Tag} {direction : Direction} {ranks : Nat}

/-- The messages between a rank and its parent and those between it and its children. -/
theorem flatten_plan (size : Nat) (tag : Tag) (direction : Direction) (ranks rank : Nat) :
    (plan size tag direction ranks rank).flatten =
      match direction with
      | .reduce =>
        (parent? rank ranks).toList.map (fun parent =>
            ⟨.send parent size tag,
              (List.range (children rank ranks).length).map (.own <| · + 1)⟩) ++
          (children rank ranks).map fun child => ⟨.recv child size tag, []⟩
      | .broadcast =>
        (parent? rank ranks).toList.map (fun parent => ⟨.recv parent size tag, []⟩) ++
          (children rank ranks).map fun child =>
            ⟨.send child size tag, (parent? rank ranks).toList.map fun _ => .own 0⟩ := by
  cases direction <;> simp [plan]

theorem selected_eq {rank peer : Nat} {label : Tag} (hrank : rank < ranks) (hpeer : peer < ranks) :
    (plan size tag direction ranks rank).flatten.filterMap
        (fun planned => planned.action.sentTo? peer label) =
      (plan size tag direction ranks peer).flatten.filterMap
        fun planned => planned.action.receivedFrom? rank label := by
  have hup : ∀ a b, (parent? a ranks).toList.filterMap
      (fun x => if x = b ∧ tag = label then some size else none) =
        if parent? a ranks = some b ∧ tag = label then [size] else [] := by
    intro a b
    rw [filterMap_single (by cases parent? a ranks <;> simp)]
    simp
  have hdown : ∀ a b, b < ranks → (children a ranks).filterMap
      (fun x => if x = b ∧ tag = label then some size else none) =
        if parent? b ranks = some a ∧ tag = label then [size] else [] := by
    intro a b hb
    rw [filterMap_single (nodup_children a ranks)]
    simp only [mem_children_iff_parent? hb]
  have hnone : ∀ entries : List Nat, entries.filterMap (fun _ => (none : Option Nat)) = [] := by
    simp
  rw [flatten_plan, flatten_plan]
  cases direction with
  | reduce =>
    simp only [List.filterMap_append, List.filterMap_map, Function.comp_def, Action.sentTo?,
      Action.receivedFrom?, hnone, List.append_nil, List.nil_append, hup, hdown peer rank hrank]
  | broadcast =>
    simp only [List.filterMap_append, List.filterMap_map, Function.comp_def, Action.sentTo?,
      Action.receivedFrom?, hnone, List.append_nil, List.nil_append, hup, hdown rank peer hpeer]

theorem parent?_of_mem {rank parent : Nat} (h : parent ∈ (parent? rank ranks).toList) :
    parent? rank ranks = some parent := by
  simpa using h

theorem level_eq {rank position : Nat} {planned : Planned}
    (h : (plan size tag direction ranks rank).flatten[position]? = some planned) :
    level size tag direction ranks rank position = levelOf direction ranks rank planned := by
  rw [level, h]
  rfl

theorem peer_of_mem_plan {rank peer : Nat} {planned : Planned}
    (h : planned ∈ (plan size tag direction ranks rank).flatten)
    (hpeer : planned.action.peer? = some peer) :
    parent? rank ranks = some peer ∨ peer ∈ children rank ranks := by
  rw [flatten_plan] at h
  cases direction with
  | reduce =>
    simp only [List.mem_append, List.mem_map] at h
    rcases h with ⟨parent, hparent, rfl⟩ | ⟨child, hchild, rfl⟩
    · cases hpeer
      exact Or.inl (parent?_of_mem hparent)
    · cases hpeer
      exact Or.inr hchild
  | broadcast =>
    simp only [List.mem_append, List.mem_map] at h
    rcases h with ⟨parent, hparent, rfl⟩ | ⟨child, hchild, rfl⟩
    · cases hpeer
      exact Or.inl (parent?_of_mem hparent)
    · cases hpeer
      exact Or.inr hchild

theorem peer_lt {rank peer : Nat} {planned : Planned} (hrank : rank < ranks)
    (h : planned ∈ (plan size tag direction ranks rank).flatten)
    (hpeer : planned.action.peer? = some peer) : peer < ranks ∧ peer ≠ rank := by
  rcases peer_of_mem_plan h hpeer with hparent | hchild
  · have := parent?_lt hparent
    omega
  · obtain ⟨step, hlt, rfl, hin⟩ := mem_children.1 hchild
    exact ⟨hin, by omega⟩

/-- Levels rise from a parent's message to those of the children, or fall in a reduction. -/
theorem edgeLevel_children (direction : Direction) {rank parent child : Nat}
    (hparent : parent? rank ranks = some parent) (hchild : child ∈ children rank ranks) :
    match direction with
    | .reduce => edgeLevel .reduce ranks rank child < edgeLevel .reduce ranks rank parent
    | .broadcast =>
      edgeLevel .broadcast ranks rank parent < edgeLevel .broadcast ranks rank child := by
  have hlt := parent?_lt hparent
  have hlog := log2_lt_of_mem_children hchild (by omega)
  obtain ⟨step, hstep, rfl, hin⟩ := mem_children.1 hchild
  have hup : max rank parent = rank := by omega
  have hdown : max rank (rank + 2 ^ step) = rank + 2 ^ step := by omega
  have hdoublings : rank.log2 < doublings ranks := by
    apply lt_doublings
    have := Nat.log2_self_le (n := rank) (by omega)
    omega
  cases direction <;> simp only [edgeLevel, hup, hdown] <;> omega

theorem rising_plan {rank position : Nat} {planned : Planned}
    (hget : (plan size tag direction ranks rank).flatten[position]? = some planned) :
    ∀ wait ∈ planned.waits,
      ∃ earlier < (plan size tag direction ranks rank).flatten.length, wait = .own earlier ∧
        level size tag direction ranks rank earlier <
          level size tag direction ranks rank position := by
  intro wait hwait
  rw [level_eq hget]
  have hmem := List.mem_of_getElem? hget
  have hflat := flatten_plan size tag direction ranks rank
  rw [hflat] at hmem
  cases direction with
  | reduce =>
    simp only [List.mem_append, List.mem_map] at hmem
    rcases hmem with ⟨parent, hparent, rfl⟩ | ⟨child, hchild, rfl⟩
    · obtain ⟨i, hi, rfl⟩ := List.mem_map.1 hwait
      have hi := List.mem_range.1 hi
      have hparent := parent?_of_mem hparent
      have hat : (plan size tag .reduce ranks rank).flatten[i + 1]? =
          some ⟨.recv (children rank ranks)[i] size tag, []⟩ := by
        rw [hflat, hparent]
        simp [hi]
      refine ⟨i + 1, (List.getElem?_eq_some_iff.1 hat).1, rfl, ?_⟩
      rw [level_eq hat]
      exact edgeLevel_children .reduce hparent (List.getElem_mem hi)
    · cases hwait
  | broadcast =>
    simp only [List.mem_append, List.mem_map] at hmem
    rcases hmem with ⟨parent, hparent, rfl⟩ | ⟨child, hchild, rfl⟩
    · cases hwait
    · obtain ⟨parent, hparent, rfl⟩ := List.mem_map.1 hwait
      have hparent := parent?_of_mem hparent
      have hat : (plan size tag .broadcast ranks rank).flatten[0]? =
          some ⟨.recv parent size tag, []⟩ := by
        rw [hflat, hparent]
        simp
      refine ⟨0, (List.getElem?_eq_some_iff.1 hat).1, rfl, ?_⟩
      rw [level_eq hat]
      exact edgeLevel_children .broadcast hparent hchild

theorem fits_plan {rank : Nat} (hrank : rank < ranks) (s : Schedule) :
    (plan size tag direction ranks rank).Fits s ranks 0 := by
  have hone : plan size tag direction ranks rank =
      [(plan size tag direction ranks rank).flatten] := by
    cases direction <;> simp [plan]
  rw [hone]
  refine ⟨fun planned hmem => ⟨fun peer hpeer => (peer_lt hrank hmem hpeer).1, ?_⟩, trivial⟩
  intro wait hwait
  obtain ⟨position, hget⟩ := List.mem_iff_getElem?.1 hmem
  obtain ⟨earlier, hlt, rfl, -⟩ := rising_plan hget wait hwait
  show earlier < 0 + (plan size tag direction ranks rank).flatten.length
  omega

theorem coherent_plan (size : Nat) (tag : Tag) (direction : Direction) (ranks : Nat) :
    RankPlan.Coherent ranks (plan size tag direction ranks) (level size tag direction ranks) where
  fits := fun rank hrank s => fits_plan hrank s
  rising := fun rank hrank position planned hget => rising_plan hget
  peers := fun rank hrank planned hmem peer hpeer => peer_lt hrank hmem hpeer
  mirrored := by
    intro a ha b hb label
    -- All messages between two ranks lie on one level, at both ends.
    have hout : ∀ position planned,
        (plan size tag direction ranks a).flatten[position]? = some planned →
        (planned.action.sentTo? b label).isSome = true →
        level size tag direction ranks a position = edgeLevel direction ranks a b := by
      intro position planned hget hsome
      obtain ⟨n, hn⟩ := Option.isSome_iff_exists.1 hsome
      rw [level_eq hget, levelOf, Action.sentTo?_eq_some.1 hn]
      rfl
    have hin : ∀ position planned,
        (plan size tag direction ranks b).flatten[position]? = some planned →
        (planned.action.receivedFrom? a label).isSome = true →
        level size tag direction ranks b position = edgeLevel direction ranks a b := by
      intro position planned hget hsome
      obtain ⟨n, hn⟩ := Option.isSome_iff_exists.1 hsome
      rw [level_eq hget, levelOf, Action.receivedFrom?_eq_some.1 hn]
      exact edgeLevel_comm direction ranks b a
    rw [RankPlan.ends_eq_map _ _ _ _ hout, RankPlan.ends_eq_map _ _ _ _ hin, selected_eq ha hb]

theorem coherent (size : Nat) (tag : Tag) (direction : Direction) :
    (tree size tag direction).Coherent := by
  intro ranks plans h
  cases h
  exact ⟨_, coherent_plan size tag direction ranks⟩

end Plan
end Binomial
end Collectives
