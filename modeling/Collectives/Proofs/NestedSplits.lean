import Collectives.Proofs.Splits

/-!
# Splits of splits

The groups of a split can be split again. That comes to one split, by pairs: a pair of colors in
which the first split's color counts first, and a pair of keys in which the second split's key does.
A pair is one number with the part that counts less below a bound.
-/

namespace Collectives

/-- Pairs of entries as numbers: `high` counts first, and the entries of `low` lie below `width`. -/
def joint (width : Nat) (high low : List Nat) : List Nat :=
  List.zipWith (fun h l => h * width + l) high low

/-- The entries at some places. -/
def within (places entries : List Nat) : List Nat := places.map (entries.getD · 0)

/-- The positions that make up a group of a partition, in the order of the group. -/
def Partition.placesOf (p : Partition) (index size : Nat) : List Nat :=
  (List.range size).map fun localRank => p.placement.idxOf ⟨index, localRank⟩

/-- Splits a group, given with its number, by the entries of its positions. -/
def Partition.splitGroup (p : Partition) (colors keys : List Nat) (entry : Communicator × Nat) :
    Except Error Partition :=
  let places := p.placesOf entry.2 entry.1.size
  entry.1.split (within places colors) (within places keys)

/-- Splits a communicator and then every group, and lists all groups in order. -/
def Communicator.splitTwice (c : Communicator) (colors keys colors' keys' : List Nat) :
    Except Error (List Communicator) := do
  let first ← c.split colors keys
  let parts ← first.groups.zipIdx.mapM (first.splitGroup colors' keys')
  return parts.flatMap (·.groups)

theorem mapM_eq_ok {α β ε : Type} {f : α → Except ε β} {g : α → β} {l : List α}
    (h : ∀ a ∈ l, f a = .ok (g a)) : l.mapM f = .ok (l.map g) := by
  induction l with
  | nil => rfl
  | cons a l ih =>
    rw [List.mapM_cons, h a (by simp), ih fun b hb => h b (by simp [hb])]
    rfl

section Pairs

variable {width h h' l l' : Nat}

theorem pair_lt_iff (hl : l < width) (hl' : l' < width) :
    h * width + l < h' * width + l' ↔ h < h' ∨ h = h' ∧ l < l' := by
  rcases Nat.lt_trichotomy h h' with hlt | rfl | hgt
  · have hle := Nat.mul_le_mul_right width (Nat.succ_le_of_lt hlt)
    rw [Nat.succ_mul] at hle
    omega
  · omega
  · have hle := Nat.mul_le_mul_right width (Nat.succ_le_of_lt hgt)
    rw [Nat.succ_mul] at hle
    omega

theorem pair_inj (hl : l < width) (hl' : l' < width) :
    h * width + l = h' * width + l' ↔ h = h' ∧ l = l' := by
  constructor
  · intro heq
    have hlt := mt (pair_lt_iff hl hl').2 heq.not_lt
    have hgt := mt (pair_lt_iff hl' hl).2 heq.not_gt
    omega
  · rintro ⟨rfl, rfl⟩
    rfl

variable {high low : List Nat} {x : Nat}

theorem length_joint (width : Nat) (h : high.length = low.length) :
    (joint width high low).length = high.length := by
  simp [joint, h]

theorem getD_joint (h : high.length = low.length) (hx : x < high.length) :
    (joint width high low).getD x 0 = high.getD x 0 * width + low.getD x 0 := by
  have hx' : x < low.length := h ▸ hx
  simp [joint, hx, hx']

end Pairs

namespace Partition

variable {colors keys colors' keys' : List Nat} {width width' color x : Nat}

theorem length_placesOf (p : Partition) (index size : Nat) :
    (p.placesOf index size).length = size := by
  simp [placesOf]

theorem placement_getElem {p : Partition} (hx : x < p.placement.length) :
    p.placement[x] = p.placeOf x := by
  rw [placeOf, List.getD_eq_getElem _ _ hx]

/-- The positions of a group are those of its color. -/
theorem placesOf_arranged (members : List Nat) (h : keys.length = colors.length) {index : Nat}
    (hcolor : (palette colors)[index]? = some color) :
    (arranged members colors keys).placesOf index (positions colors keys color).length =
      positions colors keys color := by
  set p := arranged members colors keys with hp
  have hlength : p.placement.length = colors.length := by simp [hp, arranged]
  apply List.ext_getElem (length_placesOf _ _ _)
  intro localRank _ hlocal
  have hx := ((mem_positions h).1 (List.getElem_mem hlocal)).1
  have hplace := (placeOf_arranged_eq_iff members h hcolor hlocal hx).2 rfl
  have hmem : ⟨index, localRank⟩ ∈ p.placement := by
    rw [← hplace, ← placement_getElem (hlength ▸ hx)]
    exact List.getElem_mem _
  have hindex := List.idxOf_lt_length_of_mem hmem
  have hat : p.placeOf (p.placement.idxOf ⟨index, localRank⟩) = ⟨index, localRank⟩ := by
    rw [← placement_getElem hindex, List.getElem_idxOf hindex]
  simp only [placesOf, List.getElem_map, List.getElem_range]
  exact ((placeOf_arranged_eq_iff members h hcolor hlocal (hlength ▸ hindex)).1 hat).symm

theorem getD_within {places entries : List Nat} {i : Nat} (hi : i < places.length) :
    (within places entries).getD i 0 = entries.getD (places.getD i 0) 0 := by
  simp [within, hi]

theorem length_within (places entries : List Nat) :
    (within places entries).length = places.length :=
  List.length_map _

theorem mem_positions_within {places : List Nat} {i : Nat} :
    i ∈ positions (within places colors') (within places keys') color ↔
      i < places.length ∧ colors'.getD (places.getD i 0) 0 = color := by
  rw [mem_positions (by rw [length_within, length_within]), length_within]
  refine and_congr_right fun hi => ?_
  rw [getD_within hi]

/-- Ties between the second keys are broken by the first ones: in their order the places lie
already. -/
theorem precedes_of_within {places : List Nat} (hplaces : places.Pairwise (Precedes keys))
    {i j : Nat} (hi : i < places.length) (hj : j < places.length)
    (hij : Precedes (within places keys') i j) :
    keys'.getD (places.getD i 0) 0 < keys'.getD (places.getD j 0) 0 ∨
      keys'.getD (places.getD i 0) 0 = keys'.getD (places.getD j 0) 0 ∧
        Precedes keys (places.getD i 0) (places.getD j 0) := by
  unfold Precedes at hij
  rw [getD_within hi, getD_within hj] at hij
  rcases hij with hless | ⟨hsame, hlt⟩
  · exact .inl hless
  · refine .inr ⟨hsame, ?_⟩
    rw [List.getD_eq_getElem _ 0 hi, List.getD_eq_getElem _ 0 hj]
    exact List.pairwise_iff_getElem.1 hplaces i j hi hj hlt

theorem precedes_joint (h : keys.length = colors.length) (hkeys' : keys'.length = colors.length)
    (hwidth' : ∀ key ∈ keys, key < width') {x y : Nat} (hx : x < colors.length)
    (hy : y < colors.length) :
    Precedes (joint width' keys' keys) x y ↔
      keys'.getD x 0 < keys'.getD y 0 ∨ keys'.getD x 0 = keys'.getD y 0 ∧ Precedes keys x y := by
  have hlength : keys'.length = keys.length := hkeys'.trans h.symm
  have hlow : ∀ z < colors.length, keys.getD z 0 < width' := fun z hz =>
    hwidth' _ (getD_mem (hz.trans_eq h.symm))
  unfold Precedes
  rw [getD_joint hlength (hx.trans_eq hkeys'.symm), getD_joint hlength (hy.trans_eq hkeys'.symm),
    pair_lt_iff (hlow x hx) (hlow y hy), pair_inj (hlow x hx) (hlow y hy)]
  omega

theorem joint_eq_iff (hcolors' : colors'.length = colors.length)
    (hwidth : ∀ color ∈ colors', color < width) {color' : Nat} (hcolor' : color' < width)
    (hx : x < colors.length) :
    (joint width colors colors').getD x 0 = color * width + color' ↔
      colors.getD x 0 = color ∧ colors'.getD x 0 = color' := by
  rw [getD_joint hcolors'.symm hx,
    pair_inj (hwidth _ (getD_mem (hx.trans_eq hcolors'.symm))) hcolor']

section Joint

variable (h : keys.length = colors.length) (hcolors' : colors'.length = colors.length)
  (hwidth : ∀ color ∈ colors', color < width)

include h hcolors' hwidth

theorem lt_of_mem_palette_within {color' : Nat}
    (hmem : color' ∈ palette (within (positions colors keys color) colors')) : color' < width := by
  obtain ⟨x, hx, rfl⟩ := List.mem_map.1 (mem_palette.1 hmem)
  exact hwidth _ (getD_mem (((mem_positions h).1 hx).1.trans_eq hcolors'.symm))

/-- The positions of a color within a group are those of the pair of colors. -/
theorem positions_joint (hkeys' : keys'.length = colors.length)
    (hwidth' : ∀ key ∈ keys, key < width') (color : Nat) {color' : Nat} (hcolor' : color' < width) :
    let places := positions colors keys color
    (positions (within places colors') (within places keys') color').map (places.getD · 0) =
      positions (joint width colors colors') (joint width' keys' keys)
        (color * width + color') := by
  intro places
  have hlength := length_joint width hcolors'.symm
  have hjoint : (joint width' keys' keys).length = (joint width colors colors').length := by
    rw [length_joint width' (hkeys'.trans h.symm), hlength, hkeys']
  have hplace : ∀ {i}, i < places.length → places.getD i 0 < colors.length ∧
      colors.getD (places.getD i 0) 0 = color := fun hi => (mem_positions h).1 (getD_mem hi)
  -- The list on the right is the only one with its elements in its order.
  apply eq_positions hjoint
  · intro x
    rw [hlength, List.mem_map]
    constructor
    · rintro ⟨i, hi, rfl⟩
      obtain ⟨hlt, hentry⟩ := mem_positions_within.1 hi
      obtain ⟨hx, hcolor⟩ := hplace hlt
      exact ⟨hx, (joint_eq_iff hcolors' hwidth hcolor' hx).2 ⟨hcolor, hentry⟩⟩
    · rintro ⟨hx, hpair⟩
      obtain ⟨hcolor, hentry⟩ := (joint_eq_iff hcolors' hwidth hcolor' hx).1 hpair
      have hmem : x ∈ places := (mem_positions h).2 ⟨hx, hcolor⟩
      have hlt := List.idxOf_lt_length_of_mem hmem
      have hat : places.getD (places.idxOf x) 0 = x := by
        rw [List.getD_eq_getElem _ _ hlt, List.getElem_idxOf hlt]
      exact ⟨places.idxOf x, mem_positions_within.2 ⟨hlt, by rw [hat, hentry]⟩, hat⟩
  · have hwithin : (within places keys').length = (within places colors').length := by
      rw [length_within, length_within]
    rw [List.pairwise_map]
    refine (pairwise_positions hwithin color').imp_of_mem ?_
    intro i j hi hj hij
    have hi' := (mem_positions_within.1 hi).1
    have hj' := (mem_positions_within.1 hj).1
    rw [precedes_joint h hkeys' hwidth' (hplace hi').1 (hplace hj').1]
    exact precedes_of_within (pairwise_positions h color) hi' hj' hij

theorem palette_joint :
    palette (joint width colors colors') =
      (palette colors).flatMap fun color =>
        (palette (within (positions colors keys color) colors')).map (color * width + ·) := by
  have hlow : ∀ {color color'}, color' ∈ palette (within (positions colors keys color) colors') →
      color' < width := lt_of_mem_palette_within h hcolors' hwidth
  -- Both sides ascend, and have the same numbers.
  apply (sortedLT_palette _).eq_of_mem_iff
  · rw [List.sortedLT_iff_pairwise, List.pairwise_flatMap]
    constructor
    · intro color _
      rw [List.pairwise_map]
      exact (sortedLT_palette _).pairwise.imp fun hlt => Nat.add_lt_add_left hlt _
    · refine (sortedLT_palette colors).pairwise.imp ?_
      intro color other hlt _ hpair _ hpair'
      obtain ⟨color', hcolor', rfl⟩ := List.mem_map.1 hpair
      obtain ⟨other', hother', rfl⟩ := List.mem_map.1 hpair'
      exact (pair_lt_iff (hlow hcolor') (hlow hother')).2 (.inl hlt)
  · intro pair
    rw [mem_palette, List.mem_flatMap]
    constructor
    · intro hpair
      obtain ⟨x, hx, rfl⟩ := List.mem_iff_getElem.1 hpair
      have hlt : x < colors.length := hx.trans_eq (length_joint width hcolors'.symm)
      rw [← List.getD_eq_getElem _ 0 hx, getD_joint hcolors'.symm hlt]
      refine ⟨_, getD_mem_palette hlt, List.mem_map_of_mem (mem_palette.2 ?_)⟩
      exact List.mem_map_of_mem (mem_own_positions h hlt)
    · rintro ⟨color, hcolor, hpair⟩
      obtain ⟨color', hcolor', rfl⟩ := List.mem_map.1 hpair
      obtain ⟨x, hx, rfl⟩ := List.mem_map.1 (mem_palette.1 hcolor')
      obtain ⟨hlt, rfl⟩ := (mem_positions h).1 hx
      rw [← getD_joint hcolors'.symm hlt]
      exact getD_mem ((length_joint width hcolors'.symm).symm ▸ hlt)

end Joint

end Partition

namespace Communicator

open Collectives.Partition

variable {c : Communicator} {colors keys colors' keys' : List Nat} {width width' : Nat}

/-- The group of a color. -/
def groupOf (c : Communicator) (colors keys : List Nat) (color : Nat) : Communicator :=
  ⟨within (positions colors keys color) c.members⟩

/-- How the group of a color is split further. -/
def partOf (c : Communicator) (colors keys colors' keys' : List Nat) (color : Nat) : Partition :=
  arranged (c.groupOf colors keys color).members (within (positions colors keys color) colors')
    (within (positions colors keys color) keys')

theorem splitGroup_groupOf (hcolors : colors.length = c.size) (hkeys : keys.length = c.size)
    (colors' keys' : List Nat) {color index : Nat}
    (hcolor : (palette colors)[index]? = some color) :
    (arranged c.members colors keys).splitGroup colors' keys' (c.groupOf colors keys color, index) =
      .ok (c.partOf colors keys colors' keys' color) := by
  have h : keys.length = colors.length := hkeys.trans hcolors.symm
  have hsize : (c.groupOf colors keys color).size = (positions colors keys color).length :=
    List.length_map _
  have hplaces := placesOf_arranged c.members h hcolor
  rw [splitGroup]
  simp only [hsize, hplaces]
  exact split_eq_arranged (hsize.trans (length_within _ _).symm)
    ((length_within _ _).trans (length_within _ _).symm)

theorem splitTwice_eq (hcolors : colors.length = c.size) (hkeys : keys.length = c.size)
    (colors' keys' : List Nat) :
    c.splitTwice colors keys colors' keys' =
      .ok ((palette colors).flatMap fun color =>
        (c.partOf colors keys colors' keys' color).groups) := by
  have hfirst := c.split_eq_arranged hcolors.symm (hkeys.trans hcolors.symm)
  have hgroups : (arranged c.members colors keys).groups.zipIdx =
      (palette colors).zipIdx.map (Prod.map (c.groupOf colors keys) id) := List.zipIdx_map
  have hmapM : (arranged c.members colors keys).groups.zipIdx.mapM
      ((arranged c.members colors keys).splitGroup colors' keys') =
        .ok ((palette colors).zipIdx.map fun entry =>
          c.partOf colors keys colors' keys' entry.1) := by
    rw [hgroups, List.mapM_map]
    exact mapM_eq_ok fun entry hentry =>
      splitGroup_groupOf hcolors hkeys colors' keys' (List.mem_zipIdx_iff_getElem?.1 hentry)
  -- What is left is to drop the numbers of the groups, which nothing depends on any more.
  simp only [splitTwice, hfirst, bind, Except.bind, hmapM, pure, Except.pure]
  rw [List.flatMap_map]
  conv_rhs => rw [← List.zipIdx_map_fst 0 (palette colors), List.flatMap_map]

/-- Splitting a communicator and then every group is splitting it once, by pairs of colors and by
pairs of keys. -/
theorem splitTwice_joint (hcolors : colors.length = c.size) (hkeys : keys.length = c.size)
    (hcolors' : colors'.length = c.size) (hkeys' : keys'.length = c.size)
    (hwidth : ∀ color ∈ colors', color < width) (hwidth' : ∀ key ∈ keys, key < width') :
    ∃ q, c.split (joint width colors colors') (joint width' keys' keys) = .ok q ∧
      c.splitTwice colors keys colors' keys' = .ok q.groups := by
  have h : keys.length = colors.length := hkeys.trans hcolors.symm
  have hlength := length_joint width (hcolors.trans hcolors'.symm)
  have hlength' := length_joint width' (hkeys'.trans hkeys.symm)
  refine ⟨_, split_eq_arranged (by rw [hlength, hcolors])
    (by rw [hlength, hlength', hkeys', hcolors]), ?_⟩
  have hjoint := positions_joint h (hcolors'.trans hcolors.symm) hwidth
    (hkeys'.trans hcolors.symm) hwidth'
  rw [splitTwice_eq hcolors hkeys, arranged,
    palette_joint h (hcolors'.trans hcolors.symm) hwidth, List.map_flatMap]
  refine congrArg Except.ok (List.flatMap_congr fun color _ => ?_)
  rw [partOf, arranged, List.map_map]
  refine List.map_congr_left fun color' hcolor' => congrArg Communicator.mk ?_
  have hlow := lt_of_mem_palette_within h (hcolors'.trans hcolors.symm) hwidth hcolor'
  rw [← hjoint color hlow, List.map_map]
  refine List.map_congr_left fun i hi => ?_
  exact getD_within (mem_positions_within.1 hi).1

/-- Five members: in the second split of the group with color one, keys tie and are told apart by
the keys of the first split. -/
theorem splitTwice_joint_five :
    let c : Communicator := ⟨[10, 11, 12, 13, 14]⟩
    let colors := [1, 0, 1, 0, 1]
    let keys := [2, 0, 1, 1, 0]
    let colors' := [0, 1, 0, 1, 1]
    let keys' := [3, 3, 3, 0, 1]
    (colors.length = c.size ∧ keys.length = c.size ∧ colors'.length = c.size ∧
        keys'.length = c.size ∧ (∀ color ∈ colors', color < 2) ∧ ∀ key ∈ keys, key < 3) ∧
      ∃ q, c.split [2, 1, 2, 1, 3] [11, 9, 10, 1, 3] = .ok q ∧
        c.splitTwice colors keys colors' keys' = .ok q.groups := by
  intro c colors keys colors' keys'
  have hwidth : ∀ color ∈ colors', color < 2 := by decide
  have hwidth' : ∀ key ∈ keys, key < 3 := by decide
  have htwice := @splitTwice_joint c colors keys colors' keys' 2 3 rfl rfl rfl rfl hwidth hwidth'
  exact ⟨⟨rfl, rfl, rfl, rfl, hwidth, hwidth'⟩, htwice⟩

example : Communicator.splitTwice ⟨[10, 11, 12, 13, 14]⟩ [1, 0, 1, 0, 1] [2, 0, 1, 1, 0]
    [0, 1, 0, 1, 1] [3, 3, 3, 0, 1] = .ok [⟨[13, 11]⟩, ⟨[12, 10]⟩, ⟨[14]⟩] := by cbv

end Communicator
end Collectives
