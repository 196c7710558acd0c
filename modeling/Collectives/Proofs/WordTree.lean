import Collectives.Proofs.Tree

/-!
# The binomial tree on words

At every step the sum of the rank and the distance is formed, and it may be too large for a word.
Where it fits, words compute the neighbours in the tree. On up to `2 ^ 63` ranks it always fits. On
more ranks those from `2 ^ 63` on never learn their parent: they have it at the last step, where the
sum is too large for them, though the parent finds them as its children there.
-/

namespace Collectives
namespace Binomial

variable {rank ranks step distance : UInt64}

theorem addWords_of_lt {x y : UInt64} (h : x.toNat + y.toNat < UInt64.size) :
    addWords x y = .ok (x + y) := if_pos h

theorem addWords_of_le {x y : UInt64} (h : UInt64.size ≤ x.toNat + y.toNat) :
    addWords x y = .error .sumTooLarge := if_neg (Nat.not_lt.2 h)

theorem toNat_distance (hstep : step < 64) : (1 <<< step).toNat = 2 ^ step.toNat := by
  have hplace : step.toNat < 64 := UInt64.lt_iff_toNat_lt.1 hstep
  have hfits : 2 ^ step.toNat < 2 ^ 64 := Nat.pow_lt_pow_right (by omega) hplace
  rw [UInt64.toNat_shiftLeft, UInt64.toNat_one, Nat.mod_eq_of_lt hplace, Nat.one_shiftLeft,
    Nat.mod_eq_of_lt hfits]

/-- A sum that fits is formed twice for a child and once for none. -/
theorem wordNeighbours_of_lt (hdistance : wordDistance step = .ok distance)
    (h : rank.toNat + distance.toNat < UInt64.size) :
    wordNeighbours rank ranks step = .ok {
      child :=
        if rank < distance ∧ rank + distance < ranks then some (rank + distance).toNat else none
      parent :=
        if distance ≤ rank ∧ rank < distance <<< 1 then some (rank - distance).toNat
        else none } := by
  have hsum := addWords_of_lt h
  by_cases hlt : rank < distance <;>
    simp [wordNeighbours, hdistance, hsum, hlt, bind, Except.bind, Functor.map, Except.map, pure,
      Except.pure]

theorem wordNeighbours_of_le (hdistance : wordDistance step = .ok distance)
    (h : UInt64.size ≤ rank.toNat + distance.toNat) :
    wordNeighbours rank ranks step = .error .sumTooLarge := by
  have hsum := addWords_of_le h
  by_cases hlt : rank < distance <;>
    simp [wordNeighbours, hdistance, hsum, hlt, bind, Except.bind, Functor.map, Except.map, pure,
      Except.pure]

/-- Twice a distance fits if it can be added to a rank that is not less. -/
theorem toNat_twice (hle : distance.toNat ≤ rank.toNat)
    (h : rank.toNat + distance.toNat < UInt64.size) :
    (distance <<< 1).toNat = 2 * distance.toNat := by
  have hfits : distance.toNat * 2 ^ 1 < 2 ^ 64 := by
    show distance.toNat * 2 ^ 1 < UInt64.size
    omega
  rw [UInt64.toNat_shiftLeft, UInt64.toNat_one, Nat.shiftLeft_eq, Nat.mod_eq_of_lt hfits,
    Nat.pow_one, Nat.mul_comm]

/-- Words compute the neighbours in the tree, unless the sum is too large. -/
theorem wordNeighbours_eq (hstep : step < 64) :
    wordNeighbours rank ranks step =
      if rank.toNat + 2 ^ step.toNat < UInt64.size then
        .ok (neighbours rank.toNat ranks.toNat step.toNat)
      else .error .sumTooLarge := by
  have hdistance : wordDistance step = .ok (1 <<< step) := if_pos hstep
  have hvalue := toNat_distance hstep
  generalize (1 : UInt64) <<< step = distance at hdistance hvalue
  rw [neighbours, Nat.one_shiftLeft, Nat.one_shiftLeft, Nat.pow_succ', ← hvalue]
  rcases Nat.lt_or_ge (rank.toNat + distance.toNat) UInt64.size with hfits | hlarge
  · have hsum : (rank + distance).toNat = rank.toNat + distance.toNat := by
      rw [UInt64.toNat_add]
      exact Nat.mod_eq_of_lt hfits
    rw [wordNeighbours_of_lt hdistance hfits, if_pos hfits]
    simp only [UInt64.lt_iff_toNat_lt, UInt64.le_iff_toNat_le, hsum]
    by_cases hle : distance.toNat ≤ rank.toNat
    · rw [toNat_twice hle hfits, UInt64.toNat_sub_of_le _ _ (UInt64.le_iff_toNat_le.2 hle)]
    · simp [hle]
  · rw [wordNeighbours_of_le hdistance hlarge, if_neg (Nat.not_lt.2 hlarge)]

/-- The child that a rank learns at a step; none as well where the sum is too large. -/
def childAt? (ranks step rank : UInt64) : Option Nat :=
  (wordNeighbours rank ranks step).toOption.bind (·.child)

def parentAt? (ranks step rank : UInt64) : Option Nat :=
  (wordNeighbours rank ranks step).toOption.bind (·.parent)

variable {child parent : Nat}

theorem childAt?_eq_some (hstep : step < 64) :
    childAt? ranks step rank = some child ↔
      (rank.toNat < 2 ^ step.toNat ∧ rank.toNat + 2 ^ step.toNat < ranks.toNat) ∧
        rank.toNat + 2 ^ step.toNat = child := by
  rw [childAt?, wordNeighbours_eq hstep]
  split
  case isTrue => exact child_neighbours
  case isFalse hlarge =>
    have hranks := ranks.toNat_lt_size
    simp only [Except.toOption, Option.bind_none, reduceCtorEq, false_iff]
    omega

/-- The sum is too large for a rank with a parent at the last step only. -/
theorem sum_lt_iff {n s : Nat} (hs : s < 64) (hle : 2 ^ s ≤ n) (hlt : n < 2 ^ (s + 1)) :
    n + 2 ^ s < UInt64.size ↔ s ≠ 63 := by
  rw [Nat.pow_succ] at hlt
  obtain rfl | hearlier : s = 63 ∨ s < 63 := by omega
  · simp only [UInt64.size]
    omega
  · have hdistance : 2 ^ s ≤ 2 ^ 62 := Nat.pow_le_pow_right (by omega) (by omega)
    simp only [UInt64.size]
    omega

theorem parentAt?_eq_some (hstep : step < 64) :
    parentAt? ranks step rank = some parent ↔
      (2 ^ step.toNat ≤ rank.toNat ∧ rank.toNat < 2 ^ (step.toNat + 1) ∧ step.toNat ≠ 63) ∧
        rank.toNat - 2 ^ step.toNat = parent := by
  have hplace : step.toNat < 64 := UInt64.lt_iff_toNat_lt.1 hstep
  rw [parentAt?, wordNeighbours_eq hstep]
  split
  case isTrue hfits =>
    rw [Except.toOption, Option.bind_some, parent_neighbours]
    constructor
    · rintro ⟨⟨hle, hlt⟩, hparent⟩
      exact ⟨⟨hle, hlt, (sum_lt_iff hplace hle hlt).1 hfits⟩, hparent⟩
    · rintro ⟨⟨hle, hlt, -⟩, hparent⟩
      exact ⟨⟨hle, hlt⟩, hparent⟩
  case isFalse hlarge =>
    simp only [Except.toOption, Option.bind_none, reduceCtorEq, false_iff]
    rintro ⟨⟨hle, hlt, hearlier⟩, -⟩
    exact hlarge ((sum_lt_iff hplace hle hlt).2 hearlier)

/-- A parent is learnt at the step of the highest bit, unless that is the highest bit of a word. -/
theorem isSome_parentAt?_iff (hstep : step < 64) (hpos : rank ≠ 0) :
    (parentAt? ranks step rank).isSome ↔
      step.toNat = rank.toNat.log2 ∧ rank.toNat < 2 ^ 63 := by
  have hplace : step.toNat < 64 := UInt64.lt_iff_toNat_lt.1 hstep
  have hne : rank.toNat ≠ 0 := fun h => hpos (UInt64.toNat_inj.1 h)
  rw [Option.isSome_iff_exists]
  simp only [parentAt?_eq_some hstep, exists_and_left, exists_eq', and_true]
  rw [← and_assoc, ← Nat.log2_eq_iff hne, eq_comm, and_congr_right_iff]
  intro hlog
  rw [← Nat.log2_lt hne]
  omega

/-- The two roles disagree about the children at the last step and about no others. -/
theorem roles_agree_iff {a b : UInt64} (hstep : step < 64) (hb : b < ranks) :
    (childAt? ranks step a = some b.toNat ↔ parentAt? ranks step b = some a.toNat) ↔
      ¬(step = 63 ∧ b.toNat = a.toNat + 2 ^ 63) := by
  have hplace : step.toNat < 64 := UInt64.lt_iff_toNat_lt.1 hstep
  have hsmall : b.toNat < 2 ^ 64 := b.toNat_lt
  have hinside : b.toNat < ranks.toNat := UInt64.lt_iff_toNat_lt.1 hb
  have hlast : step = 63 ↔ step.toNat = 63 := UInt64.toNat_inj.symm
  rw [childAt?_eq_some hstep, parentAt?_eq_some hstep, hlast, Nat.pow_succ]
  obtain h | hearlier : step.toNat = 63 ∨ step.toNat < 63 := by omega
  · rw [h]
    omega
  · have hpos := Nat.two_pow_pos step.toNat
    omega

/-- Below `2 ^ 63` there is one step with a parent, above there is none. -/
theorem existsUnique_parentAt?_iff (hpos : rank ≠ 0) :
    (∃! step, step < 64 ∧ (parentAt? ranks step rank).isSome) ↔ rank.toNat < 2 ^ 63 := by
  constructor
  · rintro ⟨step, ⟨hstep, hsome⟩, -⟩
    exact ((isSome_parentAt?_iff hstep hpos).1 hsome).2
  · intro hlt
    have hne : rank.toNat ≠ 0 := fun h => hpos (UInt64.toNat_inj.1 h)
    have hlog : rank.toNat.log2 < 64 := (Nat.log2_lt hne).2 (by omega)
    have hvalue : (UInt64.ofNat rank.toNat.log2).toNat = rank.toNat.log2 :=
      UInt64.toNat_ofNat_of_lt' (hlog.trans (by decide))
    have hstep : UInt64.ofNat rank.toNat.log2 < 64 := by
      rw [UInt64.lt_iff_toNat_lt, hvalue]
      exact hlog
    refine ⟨_, ⟨hstep, (isSome_parentAt?_iff hstep hpos).2 ⟨hvalue, hlt⟩⟩, ?_⟩
    rintro step ⟨hstep', hsome⟩
    rw [← UInt64.toNat_inj, hvalue]
    exact ((isSome_parentAt?_iff hstep' hpos).1 hsome).1

theorem log2_lt_of_isSome_childAt? (hstep : step < 64) (hpos : rank ≠ 0)
    (h : (childAt? ranks step rank).isSome) : rank.toNat.log2 < step.toNat := by
  have hne : rank.toNat ≠ 0 := fun h => hpos (UInt64.toNat_inj.1 h)
  obtain ⟨child, hchild⟩ := Option.isSome_iff_exists.1 h
  exact (Nat.log2_lt hne).2 ((childAt?_eq_some hstep).1 hchild).1.1

/-- All sums fit just if the rank `2 ^ 63` is none of the ranks. -/
theorem answers_iff : (∀ rank < ranks, ∀ step < 64,
    ∃ found, wordNeighbours rank ranks step = .ok found) ↔ ranks.toNat ≤ 2 ^ 63 := by
  constructor
  · intro hall
    by_contra hmany
    obtain ⟨found, hfound⟩ := hall 0x8000000000000000
      (UInt64.lt_iff_toNat_lt.2 (Nat.lt_of_not_le hmany)) 63 (by decide)
    rw [wordNeighbours_eq (by decide)] at hfound
    cases hfound
  · intro hfew rank hrank step hstep
    have hplace : step.toNat < 64 := UInt64.lt_iff_toNat_lt.1 hstep
    have hdistance : 2 ^ step.toNat ≤ 2 ^ 63 := Nat.pow_le_pow_right (by omega) (by omega)
    have hbelow : rank.toNat < ranks.toNat := UInt64.lt_iff_toNat_lt.1 hrank
    have hfits : rank.toNat + 2 ^ step.toNat < UInt64.size := by
      simp only [UInt64.size]
      omega
    exact ⟨_, (wordNeighbours_eq hstep).trans (if_pos hfits)⟩

/-- The answer is that of the tree, unless the sum of the rank and the distance is too large, which
happens on more than `2 ^ 63` ranks only. Whoever has a child at a step is the parent of that child
at the step, except at the last step, where children do not learn their parent. A rank other than 0
learns its parent at one step only, the step of its highest bit, if it lies below `2 ^ 63`, and at
no step if it does not; all its children are at later steps. -/
theorem word_roles_decide (ranks : UInt64) :
    (∀ rank step, step < 64 →
      wordNeighbours rank ranks step =
        if rank.toNat + 2 ^ step.toNat < UInt64.size then
          .ok (neighbours rank.toNat ranks.toNat step.toNat)
        else .error .sumTooLarge) ∧
    ((∀ rank < ranks, ∀ step < 64, ∃ found, wordNeighbours rank ranks step = .ok found) ↔
      ranks.toNat ≤ 2 ^ 63) ∧
    (∀ step < 64, ∀ a < ranks, ∀ b < ranks,
      (childAt? ranks step a = some b.toNat ↔ parentAt? ranks step b = some a.toNat) ↔
        ¬(step = 63 ∧ b.toNat = a.toNat + 2 ^ 63)) ∧
    ∀ rank < ranks, rank ≠ 0 →
      ((∃! step, step < 64 ∧ (parentAt? ranks step rank).isSome) ↔ rank.toNat < 2 ^ 63) ∧
      (∀ step < 64, (parentAt? ranks step rank).isSome ↔
        step.toNat = rank.toNat.log2 ∧ rank.toNat < 2 ^ 63) ∧
      ∀ step < 64, (childAt? ranks step rank).isSome → rank.toNat.log2 < step.toNat := by
  refine ⟨fun rank step => wordNeighbours_eq, answers_iff,
    fun step hstep a _ b hb => roles_agree_iff hstep hb, fun rank hrank hpos => ?_⟩
  exact ⟨existsUnique_parentAt?_iff hpos, fun step hstep => isSome_parentAt?_iff hstep hpos,
    fun step hstep => log2_lt_of_isSome_childAt? hstep hpos⟩

/-- In the greatest tree that words can name: the last rank with a parent finds it at step 62, and
its child at step 63 is the last rank of all, which gets no answer there. -/
theorem word_roles_decide_greatest :
    let ranks : UInt64 := 0xFFFFFFFFFFFFFFFF
    let a : UInt64 := 0x7FFFFFFFFFFFFFFE
    let b : UInt64 := 0xFFFFFFFFFFFFFFFE
    (a < ranks ∧ a ≠ 0 ∧ b < ranks) ∧
      (∃! step, step < 64 ∧ (parentAt? ranks step a).isSome) ∧
      (parentAt? ranks 62 a).isSome ∧
      ¬(childAt? ranks 63 a = some b.toNat ↔ parentAt? ranks 63 b = some a.toNat) ∧
      wordNeighbours b ranks 63 = .error .sumTooLarge := by
  intro ranks a b
  obtain ⟨hanswers, -, hroles, hsteps⟩ := word_roles_decide ranks
  obtain ⟨honce, hparent, -⟩ := hsteps a (by decide) (by decide)
  refine ⟨by decide, honce.2 (by decide), ?_, ?_, ?_⟩
  · exact (hparent 62 (by decide)).2 ⟨by decide, by decide⟩
  · rw [hroles 63 (by decide) a (by decide) b (by decide)]
    decide
  · exact (hanswers b 63 (by decide)).trans (if_neg (by decide))

/-- Rank 0 has the rank `2 ^ 63` as its child at the last step, but that rank gets no answer at that
step, and no parent at any. -/
theorem word_roles_slip :
    let ranks : UInt64 := 0x8000000000000001
    let last : UInt64 := 0x8000000000000000
    childAt? ranks 63 0 = some last.toNat ∧
      wordNeighbours last ranks 63 = .error .sumTooLarge ∧
      ∀ step : Fin 64, parentAt? ranks (.ofNat step) last = none := by
  decide

end Binomial
end Collectives
