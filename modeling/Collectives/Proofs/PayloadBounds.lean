import Collectives.Proofs.Calls
import Collectives.Proofs.Draws

/-!
# Bounds of drawn sizes

A drawn size differs from the wanted one by a tenth of it at most, up to rounding, and there are
words that draw both ends of this range. This holds of wanted sizes up to the greatest. A wanted
size above it is silently replaced by the greatest, so that the sizes stay near the greatest and not
near the wanted size. A sum that would exceed the greatest size becomes it, which only brings the
two closer. An unbalanced all-to-all takes all its sizes from such a matrix, so its messages keep to
the same bounds on whatever communicator it is placed.
-/

namespace Collectives

namespace Random

/-- A number is drawn as the high half of a product, or as one more if the low half may carry. -/
theorem run_uniform_cases (words : Words) (span start : Nat) :
    let product := (words start).toNat * (2 * span + 1)
    ∃ high : Nat, ((uniform words span).run start).1 = Int.ofNat high - span ∧
      (high = product / UInt64.size ∨
        UInt64.size - (2 * span + 1) < product % UInt64.size ∧
          high = product / UInt64.size + 1) := by
  intro product
  simp only [uniform, nextWord, StateT.run_bind, StateT.run_modifyGet, pure_bind]
  split
  case isTrue => exact ⟨_, rfl, Or.inl rfl⟩
  case isFalse hlow =>
    refine ⟨_, rfl, ?_⟩
    split
    · exact Or.inl rfl
    · exact Or.inr ⟨Nat.lt_of_not_le hlow, rfl⟩

/-- A drawn number stays in its range: where the high half of the product is the last value, the low
half is too small to carry. -/
theorem natAbs_uniform_le (words : Words) {span : Nat} (hspan : 2 * span + 1 ≤ UInt64.size)
    (start : Nat) : ((uniform words span).run start).1.natAbs ≤ span := by
  obtain ⟨high, hrun, hhigh⟩ := run_uniform_cases words span start
  have hbelow := Nat.mul_le_mul_right (2 * span + 1) (Nat.succ_le_of_lt (words start).toNat_lt)
  have hsplit := Nat.div_add_mod ((words start).toNat * (2 * span + 1)) UInt64.size
  rw [Nat.succ_mul] at hbelow
  rw [hrun, Int.ofNat_eq_natCast]
  simp only [UInt64.size] at *
  omega

/-- The least word draws the least number. -/
theorem run_uniform_least (words : Words) {span start : Nat} (hword : words start = 0) :
    ((uniform words span).run start).1 = -(span : Int) := by
  obtain ⟨high, hrun, hhigh⟩ := run_uniform_cases words span start
  simp only [hword, UInt64.toNat_zero, Nat.zero_mul, Nat.zero_div, Nat.zero_mod] at hhigh
  rw [hrun, Int.ofNat_eq_natCast]
  omega

theorem run_uniform_greatest (words : Words) {span start : Nat}
    (hspan : 2 * span + 1 ≤ UInt64.size) (hword : words start = 0xFFFFFFFFFFFFFFFF) :
    ((uniform words span).run start).1 = span := by
  obtain ⟨high, hrun, hhigh⟩ := run_uniform_cases words span start
  have hvalue : (words start).toNat = 18446744073709551615 := by
    rw [hword]
    rfl
  rw [hvalue] at hhigh
  rw [hrun, Int.ofNat_eq_natCast]
  simp only [UInt64.size] at *
  omega

end Random

namespace Payload

/-- Whether `size` differs from `wanted` by no more than a tenth of it, up to the constant by which
the roundings may exceed the tenth. -/
def Near (wanted size : Nat) : Prop :=
  size ≤ wanted + (wanted / 10 + 1024) ∧ wanted ≤ size + (wanted / 10 + 1024)

instance (wanted size : Nat) : Decidable (Near wanted size) :=
  inferInstanceAs (Decidable (_ ∧ _))

/-- A number of `53 + digits` binary digits loses `digits` of them when it is rounded. -/
theorem lost_le {n digits : Nat} (hn : n < 2 ^ (53 + digits)) : n.log2 + 1 - 53 ≤ digits := by
  rcases Nat.eq_zero_or_pos n with rfl | hpos
  · exact Nat.zero_le _
  · have hlog := (Nat.log2_lt hpos.ne').2 hn
    omega

/-- Rounding moves a number by half a unit of the lost digits at most. -/
theorem roundDigits_near {n digits : Nat} (hn : n < 2 ^ (53 + digits)) :
    2 * roundDigits n ≤ 2 * n + 2 ^ digits ∧ 2 * n ≤ 2 * roundDigits n + 2 ^ digits := by
  unfold roundDigits
  extract_lets lost kept rest up
  have hunit : 2 ^ lost ≤ 2 ^ digits := Nat.pow_le_pow_right (by decide) (lost_le hn)
  have hrest : rest < 2 ^ lost := by
    show n % 1 <<< lost < 2 ^ lost
    rw [Nat.one_shiftLeft]
    exact Nat.mod_lt n (Nat.two_pow_pos lost)
  have hsplit : kept * 2 ^ lost + rest = n := by
    show n >>> lost * 2 ^ lost + n % 1 <<< lost = n
    rw [Nat.shiftRight_eq_div_pow, Nat.one_shiftLeft, Nat.div_add_mod']
  have hup : up ↔ 2 ^ lost < 2 * rest ∨ 2 ^ lost = 2 * rest ∧ kept % 2 = 1 := by
    simp only [up, Nat.one_shiftLeft]
  rw [Nat.shiftLeft_eq]
  split
  case isTrue h =>
    rw [hup] at h
    rw [Nat.add_one_mul kept]
    omega
  case isFalse h =>
    rw [hup] at h
    omega

/-- A number below `2 ^ 63` loses ten digits at most, and its product with the units of a tenth
loses 62, which are seven more than the units have. -/
theorem tenth_near {n : Nat} (hn : n ≤ greatest) :
    tenth n ≤ n / 10 + 1024 ∧ n / 10 ≤ tenth n + 1024 := by
  have hgreatest : greatest = 9223372036854775807 := rfl
  have hnumber := @roundDigits_near n 10 (by omega)
  have hproduct := @roundDigits_near (roundDigits n * tenthUnits) 62 (by unfold tenthUnits; omega)
  rw [tenth, Nat.shiftRight_eq_div_pow]
  -- Ten times the units are only two more than `2 ^ 55`.
  unfold tenthUnits at hproduct ⊢
  omega

theorem natAbs_jitter (x : Int) : (jitter x).natAbs = tenth x.natAbs := by
  unfold jitter
  split
  · rw [Int.natAbs_neg, Int.natAbs_natCast]
  · rw [Int.natAbs_natCast]

theorem jitter_natCast (n : Nat) : jitter n = tenth n := by
  rw [jitter, if_neg (by omega), Int.natAbs_natCast]

theorem jitter_neg (n : Nat) : jitter (-(n : Int)) = -(tenth n : Int) := by
  rcases Nat.eq_zero_or_pos n with rfl | hpos
  · decide
  · rw [jitter, if_pos (by omega), Int.natAbs_neg, Int.natAbs_natCast]

theorem span_le_greatest (size : Nat) : span size ≤ greatest := Nat.min_le_right _ _

theorem two_span_lt (size : Nat) : 2 * span size + 1 ≤ UInt64.size := by
  have hspan := span_le_greatest size
  have hgreatest : 2 * greatest + 1 ≤ UInt64.size := by decide
  omega

theorem run_draw (words : Random.Words) (size start : Nat) :
    ((draw words size).run start).1 =
      (min ((span size : Int) + jitter ((Random.uniform words (span size)).run start).1)
        greatest).toNat := rfl

/-- A drawn size is near the wanted one. The jitter is a tenth of the span at most; a sum above the
greatest size is cut to a size that is not below the span, and one below zero to a size by less than
the jitter away. -/
theorem near_draw (words : Random.Words) (size start : Nat) :
    Near (span size) ((draw words size).run start).1 ∧
      ((draw words size).run start).1 ≤ greatest := by
  have hspan := span_le_greatest size
  have hx := Random.natAbs_uniform_le words (two_span_lt size) start
  rw [run_draw]
  generalize ((Random.uniform words (span size)).run start).1 = x at hx
  have hjitter : (jitter x).natAbs ≤ span size / 10 + 1024 := by
    rw [natAbs_jitter]
    have htenth := (tenth_near (hx.trans hspan)).1
    omega
  unfold Near
  omega

/-- The least word draws a tenth less, and the greatest word a tenth more, unless that is above the
greatest size. -/
theorem run_draw_ends (words : Random.Words) (size start : Nat) :
    (words start = 0 → ((draw words size).run start).1 = span size - tenth (span size)) ∧
    (words start = 0xFFFFFFFFFFFFFFFF →
      ((draw words size).run start).1 = min (span size + tenth (span size)) greatest) := by
  have hspan := span_le_greatest size
  constructor
  · intro hword
    rw [run_draw, Random.run_uniform_least words hword, jitter_neg]
    omega
  · intro hword
    rw [run_draw, Random.run_uniform_greatest words (two_span_lt size) hword, jitter_natCast]
    omega

theorem near_matrix (words : Random.Words) (ranks size start : Nat) :
    ∀ row ∈ ((matrix words ranks size).run start).1, ∀ entry ∈ row,
      Near (span size) entry ∧ entry ≤ greatest := by
  intro row hrow entry hentry
  obtain ⟨position, rfl⟩ := Random.Draw.mem_run_replicate hrow
  obtain ⟨position, rfl⟩ := Random.Draw.mem_run_replicate hentry
  exact near_draw words size position

theorem first_entry_matrix (words : Random.Words) {ranks : Nat} (hranks : 0 < ranks)
    (size start : Nat) :
    Alltoall.entry ((matrix words ranks size).run start).1 0 0 =
      ((draw words size).run start).1 := by
  rw [Alltoall.entry, matrix, Random.Draw.getD_run_replicate _ hranks,
    Random.Draw.getD_run_replicate _ hranks]
  rfl

/-- Both ends of the range are reached by the first entry. -/
theorem first_entry_ends (words : Random.Words) {ranks : Nat} (hranks : 0 < ranks)
    (size start : Nat) :
    let first := Alltoall.entry ((matrix words ranks size).run start).1 0 0
    (words start = 0 → first + span size / 10 ≤ span size + 1024) ∧
    (words start = 0xFFFFFFFFFFFFFFFF →
      min (span size + span size / 10) greatest ≤ first + 1024) := by
  intro first
  obtain ⟨hleast, hmost⟩ := run_draw_ends words size start
  obtain ⟨habove, hbelow⟩ := tenth_near (span_le_greatest size)
  rw [← first_entry_matrix words hranks] at hleast hmost
  constructor
  · intro hword
    have hfirst : first = span size - tenth (span size) := hleast hword
    omega
  · intro hword
    have hfirst : first = min (span size + tenth (span size)) greatest := hmost hword
    omega

/-- A tenth less than the greatest size is too far from all sizes that exceed the greatest by more
than the constant for the roundings lets pass. -/
theorem first_entry_far {words : Random.Words} {ranks size start : Nat} (hranks : 0 < ranks)
    (hword : words start = 0) (hsize : greatest + 1080 < size) :
    ¬Near size (Alltoall.entry ((matrix words ranks size).run start).1 0 0) := by
  have hspan : span size = greatest := Nat.min_eq_right (by omega)
  have hgreatest : greatest = 9223372036854775807 := rfl
  have htenth : tenth 9223372036854775807 = 922337203685477632 := by decide
  rw [first_entry_matrix words hranks, (run_draw_ends words size start).1 hword, hspan, hgreatest,
    htenth]
  unfold Near
  omega

end Payload

namespace Alltoall

variable {sizeOf : Nat → Nat → Nat} {tag : Tag} {ranks rank : Nat}

theorem entry_mem {sizes : List (List Nat)} (hrows : sizes.length = ranks)
    (hsquare : ∀ row ∈ sizes, row.length = ranks) {a b : Nat} (ha : a < ranks) (hb : b < ranks) :
    ∃ row ∈ sizes, entry sizes a b ∈ row := by
  have hentry := getElem?_of_square hrows hsquare ha hb
  obtain ⟨row, hrow, hcolumn⟩ := Option.bind_eq_some_iff.1 hentry
  exact ⟨row, List.mem_of_getElem? hrow, List.mem_of_getElem? hcolumn⟩

/-- What a rank plans when all its pairs go at once are messages with sizes from the table. -/
theorem size_of_planned {good : Nat → Prop}
    (hgood : ∀ a < ranks, ∀ b < ranks, good (sizeOf a b)) (hrank : rank < ranks)
    {planned : Planned}
    (hplanned : planned ∈ (RankPlan.parallel (pairs sizeOf tag ranks rank)).flatten) :
    ∃ size, planned.action.size? = some size ∧ good size := by
  obtain ⟨round, hround, hmem⟩ := List.mem_flatten.1 hplanned
  obtain ⟨pair, hpair, rfl⟩ := List.mem_map.1 hround
  obtain ⟨k, hk⟩ := List.mem_iff_getElem?.1 hpair
  obtain ⟨-, rfl⟩ := getElem?_pairs.1 hk
  have hranks : 0 < ranks := Nat.zero_lt_of_lt hrank
  rcases List.mem_pair.1 hmem with rfl | rfl
  · exact ⟨_, rfl, hgood rank hrank _ (Nat.mod_lt _ hranks)⟩
  · exact ⟨_, rfl, hgood _ (Nat.mod_lt _ hranks) rank hrank⟩

end Alltoall

namespace Payload

/-- Every size of a matrix is near the wanted size if that is not above the greatest size. In any
case it is near the smaller of the two, and is not above the greatest size. On a communicator whose
members all lie in the schedule the unbalanced all-to-all is carried out with the matrix that it
draws, and all that it adds are sends and receives of such sizes. Nothing of this can be sharpened:
the least word and the greatest word draw the ends of the range, and above the greatest size the
least word draws a size that is not near the wanted one. -/
theorem drawn_sizes_near (words : Random.Words) (start : Nat) (request : Alltoall.Request) :
    (∀ ranks, ∀ row ∈ ((matrix words ranks request.size).run start).1, ∀ size ∈ row,
      Near (span request.size) size ∧ size ≤ greatest ∧
        (request.size ≤ greatest → Near request.size size)) ∧
    (∀ (c : Communicator) (s : Schedule), c.Inside s →
      ∃ made,
        (Build.run c (Alltoall.pattern .unbalanced request
          ((Alltoall.drawSizes .unbalanced request words c.size).run start).1)).runOn s =
            (.ok (), made) ∧
        ∀ id op, made.op? id = some op → s.op? id = some op ∨
          ∃ size, op.action.size? = some size ∧ Near (span request.size) size ∧
            size ≤ greatest) ∧
    ∀ ranks, 0 < ranks →
      let first := Alltoall.entry ((matrix words ranks request.size).run start).1 0 0
      (words start = 0 → first + span request.size / 10 ≤ span request.size + 1024) ∧
      (words start = 0xFFFFFFFFFFFFFFFF →
        min (span request.size + span request.size / 10) greatest ≤ first + 1024) ∧
      (words start = 0 → greatest + 1080 < request.size → ¬Near request.size first) := by
  refine ⟨fun ranks row hrow size hsize => ?near, fun c s hinside => ?placed,
    fun ranks hranks => ?ends⟩
  case near =>
    obtain ⟨hnear, hbound⟩ := near_matrix words ranks request.size start row hrow size hsize
    refine ⟨hnear, hbound, fun hle => ?_⟩
    rwa [show span request.size = request.size from Nat.min_eq_left hle] at hnear
  case ends =>
    obtain ⟨hleast, hmost⟩ := first_entry_ends words hranks request.size start
    exact ⟨hleast, hmost, first_entry_far hranks⟩
  case placed =>
    rw [show Alltoall.drawSizes .unbalanced request words c.size =
      matrix words c.size request.size from rfl]
    set sizes := ((matrix words c.size request.size).run start).1 with hsizes
    obtain ⟨hrows, hsquare⟩ := matrix_square words c.size request.size start
    have hplans := Alltoall.unbalanced_of_square request hrows hsquare
    have hrun := (Alltoall.coherent_unbalanced request sizes).runOn_run hinside
    rw [Pattern.outcome, hplans] at hrun
    refine ⟨_, hrun, fun id op hop => ?_⟩
    rcases Schedule.op?_placed_cases hop with hold | ⟨rank, hrank, base, hnew⟩
    · exact Or.inl hold
    · obtain ⟨planned, hplanned, rfl⟩ := List.mem_map.1 hnew
      rw [Planned.action_place, Action.size?_mapPeer]
      refine Or.inr (Alltoall.size_of_planned (fun a ha b hb => ?_) hrank hplanned)
      obtain ⟨row, hrow, hentry⟩ := Alltoall.entry_mem hrows hsquare ha hb
      exact near_matrix words c.size request.size start row hrow _ hentry

/-- The two ends of the widest range: one draw reaches the lower bound, and the other is cut to the
greatest size. The ranks are swapped, and one of them has something to do already. Of sizes above
the greatest the same words draw a first entry that is too small. -/
theorem drawn_sizes_near_widest :
    let words := Random.Words.cycle [0, 0xFFFFFFFFFFFFFFFF]
    let request : Alltoall.Request := ⟨greatest, 7, 1⟩
    let sizes := ((Alltoall.drawSizes .unbalanced request words 2).run 0).1
    let busy : Schedule := ⟨[[⟨.calc 5, []⟩], []]⟩
    let made : Schedule := ⟨[
      [⟨.calc 5, []⟩, ⟨.send 1 8301034833169298175 7, []⟩, ⟨.recv 1 greatest 7, []⟩],
      [⟨.send 0 greatest 7, []⟩, ⟨.recv 0 8301034833169298175 7, []⟩]]⟩
    (⟨[1, 0]⟩ : Communicator).Inside busy ∧
      sizes = [[8301034833169298175, greatest], [8301034833169298175, greatest]] ∧
      (Build.run ⟨[1, 0]⟩ (Alltoall.pattern .unbalanced request sizes)).runOn busy =
        (.ok (), made) ∧
      (∀ id op, made.op? id = some op → busy.op? id = some op ∨
        ∃ size, op.action.size? = some size ∧ Near greatest size ∧ size ≤ greatest) ∧
      (∀ row ∈ sizes, ∀ size ∈ row, Near greatest size) ∧
      Alltoall.entry sizes 0 0 + greatest / 10 ≤ greatest + 1024 ∧
      greatest ≤ Alltoall.entry ((matrix words 1 greatest).run 1).1 0 0 + 1024 ∧
      ¬Near (2 * greatest) (Alltoall.entry ((matrix words 1 (2 * greatest)).run 0).1 0 0) := by
  intro words request sizes busy made
  have hinside : (⟨[1, 0]⟩ : Communicator).Inside busy := by
    simp [busy, Communicator.Inside, Schedule.rankCount]
  have hdrawn : sizes = [[8301034833169298175, greatest], [8301034833169298175, greatest]] := by
    decide
  have hrun : (Build.run ⟨[1, 0]⟩ (Alltoall.pattern .unbalanced request sizes)).runOn busy =
      (.ok (), made) := by
    rw [hdrawn]
    decide
  obtain ⟨hnear, hplaces, hends⟩ := drawn_sizes_near words 0 request
  obtain ⟨placed, hplaced, hsizes⟩ := hplaces ⟨[1, 0]⟩ busy hinside
  obtain rfl : made = placed := (Prod.mk.inj (hrun.symm.trans hplaced)).2
  refine ⟨hinside, hdrawn, hrun, hsizes, fun row hrow size hsize => ?_,
    (hends 2 (by decide)).1 rfl, ?_, ?_⟩
  · exact (hnear 2 row hrow size hsize).2.2 (Nat.le_refl _)
  · have hmost := ((drawn_sizes_near words 1 request).2.2 1 (by decide)).2.1 rfl
    rwa [Nat.min_eq_right (by decide)] at hmost
  · exact ((drawn_sizes_near words 0 ⟨2 * greatest, 7, 1⟩).2.2 1 (by decide)).2.2 rfl (by decide)

/-- The greatest word is not approached as a wanted size: the greatest size is wanted instead, and
with the least of all draws the entry misses the wanted size by more than half. -/
theorem drawn_sizes_clamped :
    let sizes := ((matrix (Random.Words.cycle [0]) 1 18446744073709551615).run 0).1
    18446744073709551615 < UInt64.size ∧ sizes = [[8301034833169298175]] ∧
      ¬ Near 18446744073709551615 8301034833169298175 := by
  decide

end Payload
end Collectives
