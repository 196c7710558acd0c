import Collectives.Partition
import Collectives.Proofs.World
import Mathlib.Data.List.Sort

/-!
# Blocks

A split lists the colors in ascending order, each once, and under every color the positions in the
order of their keys. So consecutive blocks of equal size, split by quotient and remainder, come out
as they lie: a rank is in the group of its quotient, under its remainder.
-/

namespace Collectives.Partition

/-- What is kept of a list without its duplicates has none. -/
theorem nodup_eraseDups (colors : List Nat) : colors.eraseDups.Nodup := by
  cases colors with
  | nil => simp
  | cons color rest =>
    rw [List.eraseDups_cons, List.nodup_cons]
    exact ⟨by simp, nodup_eraseDups (rest.filter fun other => !other == color)⟩
termination_by colors.length
decreasing_by exact Nat.lt_succ_of_le (rest.length_filter_le fun other => !other == color)

@[simp] theorem mem_palette {colors : List Nat} {color : Nat} :
    color ∈ palette colors ↔ color ∈ colors := by
  simp [palette]

theorem sortedLT_palette (colors : List Nat) : (palette colors).SortedLT :=
  List.sortedLE_mergeSort.sortedLT_of_nodup (nodup_eraseDups colors).mergeSort

/-- The group of a position is the one of its color. -/
theorem split_eq {colors keys : List Nat} (h : keys.length = colors.length) :
    split colors keys = .ok {
      groups := (palette colors).map fun color => ⟨positions colors keys color⟩
      placement := colors.zipIdx.map fun (color, position) =>
        ⟨(palette colors).idxOf color, (positions colors keys color).idxOf position⟩ } := by
  have hgroup : ∀ color ∈ colors,
      ((palette colors).map (positions colors keys)).getD ((palette colors).idxOf color) [] =
        positions colors keys color := by
    intro color hcolor
    have hindex := List.idxOf_lt_length_of_mem (mem_palette.2 hcolor)
    simp [List.getD_eq_getElem?_getD, List.getElem?_eq_getElem hindex]
  rw [split, if_neg (not_not_intro h)]
  dsimp only
  rw [List.map_map]
  congr 2
  apply List.map_congr_left
  rintro ⟨color, position⟩ hmem
  rw [hgroup color (List.fst_mem_of_mem_zipIdx hmem)]

theorem zipIdx_map_range (count : Nat) (f : Nat → Nat) :
    ((List.range count).map f).zipIdx =
      (List.range count).map fun position => (f position, position) :=
  List.ext_getElem (by simp) fun _ _ _ => by simp

/-- The positions of a color are sorted by key, and by position under equal keys. -/
theorem positions_map_range (count : Nat) (colorOf keyOf : Nat → Nat) (color : Nat) :
    positions ((List.range count).map colorOf) ((List.range count).map keyOf) color =
      ((((List.range count).filter (colorOf · = color)).map fun position =>
        (keyOf position, position)).mergeSort keyLe).map (·.2) := by
  rw [positions, zipIdx_map_range, List.zip_map', List.filter_map, List.map_map]
  rfl

/-- If keys do not fall within a color, its positions come in ascending order. -/
theorem positions_of_le {count : Nat} {colorOf keyOf : Nat → Nat} {color : Nat}
    (hkeys : ∀ x y, x < y → colorOf x = color → colorOf y = color → keyOf x ≤ keyOf y) :
    positions ((List.range count).map colorOf) ((List.range count).map keyOf) color =
      (List.range count).filter (colorOf · = color) := by
  have hsorted : (((List.range count).filter (colorOf · = color)).map fun position =>
      (keyOf position, position)).Pairwise fun x y => keyLe x y = true := by
    rw [List.pairwise_map]
    refine List.Pairwise.imp_of_mem ?_ (List.pairwise_lt_range.filter _)
    intro x y hx hy hlt
    have hkey := hkeys x y hlt (by simpa using (List.mem_filter.1 hx).2)
      (by simpa using (List.mem_filter.1 hy).2)
    rcases hkey.lt_or_eq with hless | hsame
    · simp [keyLe, hless]
    · simp [keyLe, hsame, hlt.le]
  rw [positions_map_range, List.mergeSort_of_pairwise hsorted, List.map_map]
  exact List.map_id _

end Collectives.Partition

namespace Collectives

/-- The block number `index` of `size` ranks. -/
def Communicator.block (size index : Nat) : Communicator :=
  ⟨(List.range size).map (index * size + ·)⟩

namespace Communicator

variable {count size index rank : Nat}

@[simp] theorem size_block (size index : Nat) : (block size index).size = size := by
  simp [block, Communicator.size]

theorem member_block (h : rank < size) : (block size index).member rank = index * size + rank := by
  simp [block, member, h]

theorem div_block (h : rank < size) : (index * size + rank) / size = index := by
  rw [Nat.mul_comm, Nat.mul_add_div (Nat.zero_lt_of_lt h), Nat.div_eq_of_lt h, Nat.add_zero]

theorem mod_block (h : rank < size) : (index * size + rank) % size = rank := by
  rw [Nat.mul_comm, Nat.mul_add_mod, Nat.mod_eq_of_lt h]

/-- A rank is in the block of its quotient. -/
theorem mem_block (hsize : 0 < size) {owner : Nat} :
    owner ∈ (block size index).members ↔ owner / size = index := by
  rw [block, List.mem_map]
  constructor
  · rintro ⟨rank, hrank, rfl⟩
    exact div_block (List.mem_range.1 hrank)
  · rintro rfl
    exact ⟨owner % size, List.mem_range.2 (Nat.mod_lt _ hsize), Nat.div_add_mod' owner size⟩

theorem sortedLT_block (size index : Nat) : (block size index).members.SortedLT := by
  rw [List.sortedLT_iff_pairwise, block, List.pairwise_map]
  exact List.pairwise_lt_range.imp fun h => Nat.add_lt_add_left h _

theorem nodup_block (size index : Nat) : (block size index).members.Nodup :=
  (sortedLT_block size index).nodup

theorem lt_of_mem_block (hindex : index < count) {owner : Nat}
    (h : owner ∈ (block size index).members) : owner < count * size := by
  obtain ⟨rank, hrank, rfl⟩ := List.mem_map.1 h
  calc index * size + rank < index * size + size :=
        Nat.add_lt_add_left (List.mem_range.1 hrank) _
    _ = (index + 1) * size := (Nat.succ_mul index size).symm
    _ ≤ count * size := Nat.mul_le_mul_right size hindex

/-- Of the ranks of all blocks those with one quotient are a block. -/
theorem filter_div (hindex : index < count) (hsize : 0 < size) :
    (List.range (count * size)).filter (· / size = index) = (block size index).members := by
  apply List.SortedLT.eq_of_mem_iff _ (sortedLT_block size index)
  · intro owner
    rw [List.mem_filter, mem_block hsize, decide_eq_true_iff, List.mem_range]
    exact ⟨And.right, fun h => ⟨lt_of_mem_block hindex ((mem_block hsize).2 h), h⟩⟩
  · exact List.sortedLT_iff_pairwise.2 (List.pairwise_lt_range.filter _)

end Communicator

namespace Partition

open Communicator

variable {count size : Nat}

theorem palette_div (hsize : 0 < size) :
    palette ((List.range (count * size)).map (· / size)) = List.range count := by
  apply (sortedLT_palette _).eq_of_mem_iff (List.sortedLT_range count)
  intro index
  rw [mem_palette, List.mem_map, List.mem_range]
  constructor
  · rintro ⟨owner, howner, rfl⟩
    exact (Nat.div_lt_iff_lt_mul hsize).2 (List.mem_range.1 howner)
  · intro hindex
    have hfirst : index * size ∈ (block size index).members :=
      (mem_block hsize).2 (Nat.mul_div_cancel index hsize)
    exact ⟨_, List.mem_range.2 (lt_of_mem_block hindex hfirst), Nat.mul_div_cancel index hsize⟩

theorem positions_div_mod {index : Nat} (hindex : index < count) (hsize : 0 < size) :
    positions ((List.range (count * size)).map (· / size))
        ((List.range (count * size)).map (· % size)) index = (block size index).members := by
  rw [positions_of_le, filter_div hindex hsize]
  rintro x y hlt hx hy
  have hxy := Nat.div_add_mod x size
  have hyx := Nat.div_add_mod y size
  rw [hx] at hxy
  rw [hy] at hyx
  omega

/-- Every group is a block, and a rank is in the group of its quotient under its remainder. -/
theorem blocks_eq (hcount : 0 < count) (hsize : 0 < size) :
    blocks count size = .ok {
      groups := (List.range count).map (block size)
      placement := (List.range (count * size)).map fun rank => ⟨rank / size, rank % size⟩ } := by
  rw [blocks, if_neg (Nat.mul_pos hcount hsize).ne', split_eq (by simp), palette_div hsize,
    zipIdx_map_range, List.map_map]
  congr 2
  · exact List.map_congr_left fun index hindex =>
      congrArg Communicator.mk (positions_div_mod (List.mem_range.1 hindex) hsize)
  · refine List.map_congr_left fun owner howner => ?_
    have hindex := (Nat.div_lt_iff_lt_mul hsize).2 (List.mem_range.1 howner)
    have hrank : owner % size < size := Nat.mod_lt owner hsize
    have hgroup := (world count).idxOf_member (nodup_world count) (by simpa using hindex)
    have hlocal := (block size (owner / size)).idxOf_member (nodup_block _ _) (by simpa using hrank)
    rw [member_world hindex] at hgroup
    rw [member_block hrank, Nat.div_add_mod'] at hlocal
    exact congrArg₂ Placement.mk hgroup
      ((congrArg (List.idxOf owner) (positions_div_mod hindex hsize)).trans hlocal)

end Partition
end Collectives
