import Collectives.Proofs.Blocks
import Mathlib.Data.Finset.Card
import Mathlib.Data.List.GetD
import Mathlib.Order.Monotone.Defs

/-!
# Splits

A split is the partition by color: a group for every color, in ascending order, and in it the
positions of that color in strictly ascending order of key and position. Where a position came to
lie and what lies there determine each other, also when the members of a communicator take the place
of the positions. Of colors and keys nothing counts but their order.
-/

namespace Collectives

/-- In a list that strictly ascends in some order, places and entries have the same order. -/
theorem idxOf_lt_idxOf_iff {r : Nat → Nat → Prop} [Std.Asymm r] {entries : List Nat}
    (h : entries.Pairwise r) {x y : Nat} (hx : x ∈ entries) (hy : y ∈ entries) :
    entries.idxOf x < entries.idxOf y ↔ r x y := by
  have hpair := List.pairwise_iff_getElem.1 h
  have hx' := List.idxOf_lt_length_of_mem hx
  have hy' := List.idxOf_lt_length_of_mem hy
  constructor
  · intro hlt
    simpa using hpair _ _ hx' hy' hlt
  · intro hxy
    by_contra hle
    rcases (Nat.le_of_not_lt hle).lt_or_eq with hlt | heq
    · have hyx : r y x := by simpa using hpair _ _ hy' hx' hlt
      exact Std.Asymm.asymm _ _ hxy hyx
    · rw [List.idxOf_inj hy] at heq
      subst heq
      exact Std.Asymm.asymm _ _ hxy hxy

namespace Partition

/-- Whether a position lies before another one of the same color: by its key, and under equal keys
by itself. -/
def Precedes (keys : List Nat) (x y : Nat) : Prop :=
  keys.getD x 0 < keys.getD y 0 ∨ keys.getD x 0 = keys.getD y 0 ∧ x < y

instance (keys : List Nat) : Std.Asymm (Precedes keys) :=
  ⟨fun _ _ h h' => by unfold Precedes at h h'; omega⟩

instance (keys : List Nat) : Std.Irrefl (Precedes keys) :=
  ⟨fun _ h => by unfold Precedes at h; omega⟩

variable {colors keys : List Nat} {color x y : Nat}

theorem positions_eq_map (h : keys.length = colors.length) (color : Nat) :
    positions colors keys color =
      ((((List.range colors.length).filter (colors.getD · 0 = color)).map fun position =>
        (keys.getD position 0, position)).mergeSort keyLe).map (·.2) := by
  have hentries : ∀ entries : List Nat,
      (List.range entries.length).map (entries.getD · 0) = entries := fun entries =>
    (Communicator.map_member_range ⟨entries⟩ (Nat.le_refl _)).trans entries.take_length
  have hkeys := hentries keys
  rw [h] at hkeys
  rw [← positions_map_range, hentries colors, hkeys]

theorem mem_positions (h : keys.length = colors.length) :
    x ∈ positions colors keys color ↔ x < colors.length ∧ colors.getD x 0 = color := by
  simp [positions_eq_map h]

theorem keyLe_trans (a b c : Nat × Nat) :
    keyLe a b = true → keyLe b c = true → keyLe a c = true := by
  simp only [keyLe, Bool.or_eq_true, Bool.and_eq_true, decide_eq_true_eq]
  omega

theorem keyLe_total (a b : Nat × Nat) : (keyLe a b || keyLe b a) = true := by
  simp only [keyLe, Bool.or_eq_true, Bool.and_eq_true, decide_eq_true_eq]
  omega

theorem pairwise_positions (h : keys.length = colors.length) (color : Nat) :
    (positions colors keys color).Pairwise (Precedes keys) := by
  set places := (List.range colors.length).filter (colors.getD · 0 = color) with hplaces
  set pairs := places.map fun position => (keys.getD position 0, position) with hpairs
  have hperm : (pairs.mergeSort keyLe).Perm pairs := List.mergeSort_perm pairs keyLe
  have hsorted : (pairs.mergeSort keyLe).Pairwise fun a b => keyLe a b = true :=
    List.pairwise_mergeSort keyLe_trans keyLe_total pairs
  have hnodup : ((pairs.mergeSort keyLe).map (·.2)).Nodup := by
    rw [(hperm.map _).nodup_iff, hpairs, List.map_map, hplaces]
    exact (List.map_id' _).symm ▸ List.nodup_range.filter _
  have hkey : ∀ a ∈ pairs.mergeSort keyLe, a.1 = keys.getD a.2 0 := by
    intro a ha
    obtain ⟨position, -, rfl⟩ := List.mem_map.1 (hperm.mem_iff.1 ha)
    rfl
  rw [positions_eq_map h, List.pairwise_map]
  refine (hsorted.and (List.pairwise_map.1 hnodup)).imp_of_mem ?_
  rintro a b ha hb ⟨hle, hne⟩
  simp only [keyLe, Bool.or_eq_true, Bool.and_eq_true, decide_eq_true_eq, hkey a ha,
    hkey b hb] at hle
  unfold Precedes
  omega

/-- The positions of a color are the only such list. -/
theorem eq_positions (h : keys.length = colors.length) {places : List Nat}
    (hmem : ∀ x, x ∈ places ↔ x < colors.length ∧ colors.getD x 0 = color)
    (hsorted : places.Pairwise (Precedes keys)) : places = positions colors keys color :=
  hsorted.eq_of_mem_iff (pairwise_positions h color) fun x => by rw [hmem, mem_positions h]

/-- The partition by color, with a member in the place of every position. -/
def arranged (members colors keys : List Nat) : Partition where
  groups := (palette colors).map fun color =>
    ⟨(positions colors keys color).map (members.getD · 0)⟩
  placement := colors.zipIdx.map fun (color, position) =>
    ⟨(palette colors).idxOf color, (positions colors keys color).idxOf position⟩

theorem map_positions_range (h : keys.length = colors.length) (color : Nat) :
    (positions colors keys color).map ((List.range colors.length).getD · 0) =
      positions colors keys color := by
  have hsame : ∀ x ∈ positions colors keys color, (List.range colors.length).getD x 0 = x := by
    intro x hx
    simp [((mem_positions h).1 hx).1]
  exact (List.map_congr_left hsame).trans (List.map_id' _)

theorem split_eq_arranged (h : keys.length = colors.length) :
    split colors keys = .ok (arranged (List.range colors.length) colors keys) := by
  rw [split_eq h, arranged]
  congr 2
  exact List.map_congr_left fun color _ =>
    congrArg Communicator.mk (map_positions_range h color).symm

/-- Where a position came to lie. -/
def placeOf (p : Partition) (position : Nat) : Placement := p.placement.getD position ⟨0, 0⟩

theorem placeOf_arranged (members : List Nat) {position : Nat}
    (hposition : position < colors.length) :
    (arranged members colors keys).placeOf position =
      ⟨(palette colors).idxOf (colors.getD position 0),
        (positions colors keys (colors.getD position 0)).idxOf position⟩ := by
  simp [placeOf, arranged, hposition]

/-- The partition of `members` by color, with the position of a member for its rank. -/
structure Divides (members colors keys : List Nat) (p : Partition) : Prop where
  length_placement : p.placement.length = colors.length
  length_groups : p.groups.length = colors.toFinset.card
  ne_nil : ∀ group ∈ p.groups, group.members ≠ []
  group_eq : ∀ i < colors.length, ∀ j < colors.length,
    (p.placeOf i).group = (p.placeOf j).group ↔ colors.getD i 0 = colors.getD j 0
  group_lt : ∀ i < colors.length, ∀ j < colors.length,
    (p.placeOf i).group < (p.placeOf j).group ↔ colors.getD i 0 < colors.getD j 0
  localRank_lt : ∀ i < colors.length, ∀ j < colors.length,
    (p.placeOf i).group = (p.placeOf j).group →
      ((p.placeOf i).localRank < (p.placeOf j).localRank ↔ Precedes keys i j)
  member_at : ∀ i < colors.length,
    p.groups[(p.placeOf i).group]?.bind (·.members[(p.placeOf i).localRank]?) = members[i]?
  position_of : ∀ index group, p.groups[index]? = some group → ∀ localRank < group.size,
    ∃! i, i < colors.length ∧ p.placeOf i = ⟨index, localRank⟩

theorem getD_mem_palette (hx : x < colors.length) : colors.getD x 0 ∈ palette colors := by
  simp [hx]

theorem mem_own_positions (h : keys.length = colors.length) (hx : x < colors.length) :
    x ∈ positions colors keys (colors.getD x 0) :=
  (mem_positions h).2 ⟨hx, rfl⟩

theorem length_palette (colors : List Nat) : (palette colors).length = colors.toFinset.card := by
  rw [← List.toFinset_card_of_nodup (sortedLT_palette colors).nodup]
  congr 1
  ext color
  simp

theorem exists_of_getElem?_groups {members : List Nat} {index : Nat} {group : Communicator}
    (hgroup : (arranged members colors keys).groups[index]? = some group) :
    ∃ color, (palette colors)[index]? = some color ∧
      group = ⟨(positions colors keys color).map (members.getD · 0)⟩ := by
  rw [arranged, List.getElem?_map, Option.map_eq_some_iff] at hgroup
  obtain ⟨color, hcolor, rfl⟩ := hgroup
  exact ⟨color, hcolor, rfl⟩

/-- The position that lies at a place. -/
theorem placeOf_arranged_eq_iff (members : List Nat) (h : keys.length = colors.length)
    {index localRank : Nat} (hcolor : (palette colors)[index]? = some color)
    (hlocal : localRank < (positions colors keys color).length) (hx : x < colors.length) :
    (arranged members colors keys).placeOf x = ⟨index, localRank⟩ ↔
      (positions colors keys color)[localRank] = x := by
  rw [placeOf_arranged _ hx, Placement.mk.injEq]
  constructor
  · rintro ⟨hgroup, hplace⟩
    have hat := List.getElem?_idxOf (getD_mem_palette hx)
    rw [hgroup, hcolor] at hat
    obtain rfl := Option.some.inj hat
    subst hplace
    exact List.getElem_idxOf hlocal
  · rintro rfl
    obtain ⟨hindex, hentry⟩ := List.getElem?_eq_some_iff.1 hcolor
    have hown := ((mem_positions h).1 (List.getElem_mem hlocal)).2
    rw [hown]
    refine ⟨?_, (pairwise_positions h _).nodup.idxOf_getElem _ hlocal⟩
    rw [← hentry, (sortedLT_palette colors).nodup.idxOf_getElem]

theorem divides_arranged {members : List Nat} (hmembers : members.length = colors.length)
    (h : keys.length = colors.length) :
    (arranged members colors keys).Divides members colors keys where
  length_placement := by simp [arranged]
  length_groups := by rw [← length_palette, arranged, List.length_map]
  ne_nil := by
    intro group hgroup
    obtain ⟨color, hcolor, rfl⟩ := List.mem_map.1 hgroup
    obtain ⟨x, hx, hentry⟩ := List.mem_iff_getElem.1 (mem_palette.1 hcolor)
    have hmem : x ∈ positions colors keys color :=
      (mem_positions h).2 ⟨hx, by rw [List.getD_eq_getElem _ _ hx, hentry]⟩
    exact List.ne_nil_of_mem (List.mem_map_of_mem hmem)
  group_eq := by
    intro i hi j hj
    rw [placeOf_arranged _ hi, placeOf_arranged _ hj]
    exact List.idxOf_inj (getD_mem_palette hi)
  group_lt := by
    intro i hi j hj
    rw [placeOf_arranged _ hi, placeOf_arranged _ hj]
    exact idxOf_lt_idxOf_iff (sortedLT_palette colors).pairwise (getD_mem_palette hi)
      (getD_mem_palette hj)
  localRank_lt := by
    intro i hi j hj hgroup
    rw [placeOf_arranged _ hi, placeOf_arranged _ hj] at hgroup ⊢
    have hcolor := (List.idxOf_inj (getD_mem_palette hi)).1 hgroup
    have hmem := mem_own_positions h hj
    rw [← hcolor] at hmem ⊢
    exact idxOf_lt_idxOf_iff (pairwise_positions h _) (mem_own_positions h hi) hmem
  member_at := by
    intro i hi
    rw [placeOf_arranged _ hi]
    have hgroup := List.getElem?_idxOf (getD_mem_palette hi)
    have hplace := List.getElem?_idxOf (mem_own_positions h hi)
    simp only [arranged, List.getElem?_map, hgroup, hplace, Option.map_some, Option.bind_some]
    rw [List.getElem?_eq_getElem (hmembers ▸ hi), List.getD_eq_getElem _ _ (hmembers ▸ hi)]
  position_of := by
    intro index group hgroup localRank hlocal
    obtain ⟨color, hcolor, rfl⟩ := exists_of_getElem?_groups hgroup
    have hlocal' : localRank < (positions colors keys color).length := by
      simpa [Communicator.size] using hlocal
    have hx := ((mem_positions h).1 (List.getElem_mem hlocal')).1
    refine ⟨(positions colors keys color)[localRank], ⟨hx, ?_⟩, ?_⟩
    · exact (placeOf_arranged_eq_iff members h hcolor hlocal' hx).2 rfl
    · rintro i ⟨hi, hplace⟩
      exact ((placeOf_arranged_eq_iff members h hcolor hlocal' hi).1 hplace).symm

theorem nodup_of_mem_groups {members : List Nat} (hmembers : members.length = colors.length)
    (h : keys.length = colors.length) (hnodup : members.Nodup) {group : Communicator}
    (hgroup : group ∈ (arranged members colors keys).groups) : group.members.Nodup := by
  obtain ⟨color, -, rfl⟩ := List.mem_map.1 hgroup
  refine List.Nodup.map_on ?_ (pairwise_positions h color).nodup
  intro x hx y hy hsame
  have hx' := hmembers ▸ ((mem_positions h).1 hx).1
  have hy' := hmembers ▸ ((mem_positions h).1 hy).1
  rw [List.getD_eq_getElem _ _ hx', List.getD_eq_getElem _ _ hy'] at hsame
  exact (hnodup.getElem_inj_iff).1 hsame

section Order

variable {f g : Nat → Nat}

theorem getD_map (f : Nat → Nat) {entries : List Nat} (hx : x < entries.length) :
    (entries.map f).getD x 0 = f (entries.getD x 0) := by
  simp [hx]

theorem getD_mem {entries : List Nat} (hx : x < entries.length) : entries.getD x 0 ∈ entries := by
  simp [hx]

theorem palette_map (hf : StrictMonoOn f {color | color ∈ colors}) :
    palette (colors.map f) = (palette colors).map f := by
  apply (sortedLT_palette _).eq_of_mem_iff
  · rw [List.sortedLT_iff_pairwise, List.pairwise_map]
    refine (sortedLT_palette colors).pairwise.imp_of_mem ?_
    intro color other hcolor hother hlt
    exact hf (mem_palette.1 hcolor) (mem_palette.1 hother) hlt
  · simp

theorem positions_map (h : keys.length = colors.length)
    (hf : StrictMonoOn f {color | color ∈ colors}) (hg : StrictMonoOn g {key | key ∈ keys})
    (hcolor : color ∈ colors) :
    positions (colors.map f) (keys.map g) (f color) = positions colors keys color := by
  symm
  apply eq_positions (by simpa using h)
  · intro x
    rw [mem_positions h, List.length_map]
    refine and_congr_right fun hx => ?_
    rw [getD_map f hx, hf.injOn.eq_iff (getD_mem hx) hcolor]
  · refine (pairwise_positions h color).imp_of_mem ?_
    intro x y hx hy hxy
    have hx' := h.symm ▸ ((mem_positions h).1 hx).1
    have hy' := h.symm ▸ ((mem_positions h).1 hy).1
    unfold Precedes
    rw [getD_map g hx', getD_map g hy', hg.lt_iff_lt (getD_mem hx') (getD_mem hy'),
      hg.injOn.eq_iff (getD_mem hx') (getD_mem hy')]
    exact hxy

theorem idxOf_map_palette (hf : StrictMonoOn f {color | color ∈ colors}) (hcolor : color ∈ colors) :
    ((palette colors).map f).idxOf (f color) = (palette colors).idxOf color := by
  have hnodup : ((palette colors).map f).Nodup :=
    palette_map hf ▸ (sortedLT_palette (colors.map f)).nodup
  have hindex := List.idxOf_lt_length_of_mem (mem_palette.2 hcolor)
  have hat := hnodup.idxOf_getElem _ ((List.length_map f).symm ▸ hindex)
  rwa [List.getElem_map, List.getElem_idxOf] at hat

/-- Only the order of colors and of keys matters. -/
theorem arranged_map (members : List Nat) (h : keys.length = colors.length)
    (hf : StrictMonoOn f {color | color ∈ colors}) (hg : StrictMonoOn g {key | key ∈ keys}) :
    arranged members (colors.map f) (keys.map g) = arranged members colors keys := by
  unfold arranged
  rw [palette_map hf, List.map_map, List.zipIdx_map, List.map_map]
  congr 1
  · refine List.map_congr_left fun color hcolor => ?_
    rw [Function.comp_apply, positions_map h hf hg (mem_palette.1 hcolor)]
  · refine List.map_congr_left ?_
    rintro ⟨color, position⟩ hentry
    have hcolor := List.fst_mem_of_mem_zipIdx hentry
    simp only [Function.comp_apply, Prod.map_apply, id_eq]
    rw [positions_map h hf hg hcolor, idxOf_map_palette hf hcolor]

end Order

end Partition

namespace Communicator

open Collectives.Partition

variable {c : Communicator} {colors keys : List Nat}

theorem split_eq_arranged (hsize : c.size = colors.length) (h : keys.length = colors.length) :
    c.split colors keys = .ok (arranged c.members colors keys) := by
  rw [split, if_neg (not_not_intro hsize.symm), split_eq h]
  simp [arranged, bind, Except.bind, pure, Except.pure, Function.comp_def]

theorem local?_eq_some (hnodup : c.members.Nodup) {rank member : Nat}
    (h : c.members[rank]? = some member) : c.local? member = some rank := by
  obtain ⟨hrank, rfl⟩ := List.getElem?_eq_some_iff.1 h
  refine List.idxOf?_eq_some_iff.2 ⟨hrank, rfl, fun earlier hlt hsame => ?_⟩
  exact hlt.ne (hnodup.getElem_inj_iff.1 hsame)

/-- Under distinct members a member has, in its group, the local rank of its position. -/
theorem local?_arranged (hsize : c.size = colors.length) (h : keys.length = colors.length)
    (hnodup : c.members.Nodup) {position : Nat} (hposition : position < colors.length) :
    let q := arranged c.members colors keys
    q.groups[(q.placeOf position).group]?.bind (·.local? (c.member position)) =
      some (q.placeOf position).localRank := by
  intro q
  have hat := (divides_arranged hsize h).member_at position hposition
  have hmember : c.members[position]? = some (c.member position) := by
    have hlt : position < c.members.length := hposition.trans_eq hsize.symm
    rw [member, List.getD_eq_getElem _ _ hlt, List.getElem?_eq_getElem hlt]
  rw [hmember, Option.bind_eq_some_iff] at hat
  obtain ⟨group, hgroup, hplace⟩ := hat
  rw [hgroup, Option.bind_some]
  exact local?_eq_some (nodup_of_mem_groups hsize h hnodup (List.mem_of_getElem? hgroup)) hplace

end Communicator

namespace Partition

variable {colors keys : List Nat}

/-- A split is the partition by color, with its groups in ascending order of color and its ranks in
ascending order of key and rank, and so is the split of every communicator with as many members, its
members in place of the ranks. Strictly increasing maps of colors and keys change nothing. -/
theorem split_divides (h : keys.length = colors.length) :
    ∃ p, split colors keys = .ok p ∧ p.Divides (List.range colors.length) colors keys ∧
      (∀ group ∈ p.groups, group.members.Pairwise (Precedes keys)) ∧
      (∀ c : Communicator, c.size = colors.length →
        ∃ q, c.split colors keys = .ok q ∧ q.Divides c.members colors keys ∧
          (c.members.Nodup → ∀ i < colors.length,
            q.groups[(q.placeOf i).group]?.bind (·.local? (c.member i)) =
              some (q.placeOf i).localRank)) ∧
      ∀ f g, StrictMonoOn f {color | color ∈ colors} → StrictMonoOn g {key | key ∈ keys} →
        split (colors.map f) (keys.map g) = .ok p ∧
          ∀ c : Communicator, c.size = colors.length →
            c.split (colors.map f) (keys.map g) = c.split colors keys := by
  refine ⟨_, split_eq_arranged h, divides_arranged List.length_range h, ?_, ?_, ?_⟩
  · intro group hgroup
    obtain ⟨color, -, rfl⟩ := List.mem_map.1 hgroup
    rw [map_positions_range h]
    exact pairwise_positions h color
  · intro c hsize
    exact ⟨_, c.split_eq_arranged hsize h, divides_arranged hsize h,
      fun hnodup i hi => Communicator.local?_arranged hsize h hnodup hi⟩
  · intro f g hf hg
    have hmapped : (keys.map g).length = (colors.map f).length := by simpa using h
    constructor
    · rw [split_eq_arranged hmapped, List.length_map, arranged_map _ h hf hg]
    · intro c hsize
      rw [c.split_eq_arranged hsize h,
        Communicator.split_eq_arranged (by simpa using hsize) hmapped, arranged_map _ h hf hg]

/-- Four ranks of two colors, two of them with one key; the members of a communicator, and maps. -/
theorem split_divides_four :
    let colors := [7, 2, 7, 2]
    let keys := [1, 5, 1, 0]
    let c : Communicator := ⟨[8, 3, 5, 1]⟩
    keys.length = colors.length ∧ c.size = colors.length ∧ c.members.Nodup ∧
      ∃ p q, split colors keys = .ok p ∧ p.Divides [0, 1, 2, 3] colors keys ∧
        c.split colors keys = .ok q ∧ q.Divides [8, 3, 5, 1] colors keys ∧
        q.groups[(q.placeOf 2).group]?.bind (·.local? 5) = some (q.placeOf 2).localRank ∧
        split [15, 5, 15, 5] [4, 8, 4, 3] = .ok p := by
  intro colors keys c
  have hlength : keys.length = colors.length := rfl
  have hsize : c.size = colors.length := rfl
  have hnodup : c.members.Nodup := by decide
  obtain ⟨p, hp, hdivides, -, hall, hmaps⟩ := split_divides hlength
  obtain ⟨q, hq, hdivides', hlocal⟩ := hall c hsize
  refine ⟨hlength, hsize, hnodup, p, q, hp, hdivides, hq, hdivides', ?_, ?_⟩
  · exact hlocal hnodup 2 (by decide)
  · exact (hmaps (2 * · + 1) (· + 3) (fun x _ y _ hlt => by dsimp only; omega)
      fun x _ y _ hlt => by dsimp only; omega).1

example : split [7, 2, 7, 2] [1, 5, 1, 0] =
    .ok ⟨[⟨[3, 1]⟩, ⟨[0, 2]⟩], [⟨1, 0⟩, ⟨0, 1⟩, ⟨1, 1⟩, ⟨0, 0⟩]⟩ := by cbv

end Partition
end Collectives
