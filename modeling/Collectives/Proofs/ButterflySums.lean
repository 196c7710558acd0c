import Collectives.Proofs.ChainedRounds
import Mathlib.Data.Int.CardIntervalMod

/-!
# The butterfly sums up

In the first phase a rank keeps, step by step, the chunks that agree with it in one more bit, and
gives the others of those that it had kept to its partner. After it, every chunk is complete at the
rank of its own number, and the second phase undoes the steps with complete sums. What a rank gives
away at a step comes back only when that step is undone.
-/

namespace Collectives.Butterfly

/-- The two numbers have the same bits below `count`. -/
def SameLow (count a b : Nat) : Prop := ∀ bit < count, a.testBit bit = b.testBit bit

instance (count a b : Nat) : Decidable (SameLow count a b) :=
  inferInstanceAs (Decidable (∀ bit < count, a.testBit bit = b.testBit bit))

section Bits

variable {k step count a b : Nat}

theorem testBit_flip (a step : Nat) : (a ^^^ 2 ^ step).testBit step = !a.testBit step := by
  rw [Nat.testBit_xor, Nat.testBit_two_pow_self, Bool.xor_true]

theorem testBit_flip_of_ne {bit : Nat} (h : bit ≠ step) (a : Nat) :
    (a ^^^ 2 ^ step).testBit bit = a.testBit bit := by
  rw [Nat.testBit_xor, Nat.testBit_two_pow_of_ne h.symm, Bool.xor_false]

theorem flip_flip (a step : Nat) : (a ^^^ 2 ^ step) ^^^ 2 ^ step = a := by
  rw [Nat.xor_assoc, Nat.xor_self, Nat.xor_zero]

theorem flip_lt (ha : a < 2 ^ k) (hstep : step < k) : a ^^^ 2 ^ step < 2 ^ k :=
  Nat.xor_lt_two_pow ha (Nat.pow_lt_pow_right (by omega) hstep)

theorem sameLow_succ :
    SameLow (step + 1) a b ↔ SameLow step a b ∧ a.testBit step = b.testBit step := by
  constructor
  · intro h
    exact ⟨fun bit hbit => h bit (Nat.lt_succ_of_lt hbit), h step (Nat.lt_succ_self step)⟩
  · rintro ⟨hlow, hlast⟩ bit hbit
    rcases Nat.lt_succ_iff_lt_or_eq.1 hbit with hlt | rfl
    · exact hlow bit hlt
    · exact hlast

theorem SameLow.mono {fewer : Nat} (h : SameLow count a b) (hle : fewer ≤ count) :
    SameLow fewer a b :=
  fun bit hbit => h bit (Nat.lt_of_lt_of_le hbit hle)

theorem sameLow_flip (hle : count ≤ step) :
    SameLow count a (b ^^^ 2 ^ step) ↔ SameLow count a b := by
  have hbits : ∀ bit < count, (b ^^^ 2 ^ step).testBit bit = b.testBit bit :=
    fun bit hbit => testBit_flip_of_ne (by omega) b
  constructor
  · exact fun h bit hbit => (h bit hbit).trans (hbits bit hbit)
  · exact fun h bit hbit => (h bit hbit).trans (hbits bit hbit).symm

theorem sameLow_succ_flip :
    SameLow (step + 1) a (b ^^^ 2 ^ step) ↔ SameLow step a b ∧ a.testBit step ≠ b.testBit step := by
  rw [sameLow_succ, sameLow_flip (Nat.le_refl step), testBit_flip]
  cases a.testBit step <;> cases b.testBit step <;> simp

theorem sameLow_iff_mod : SameLow count a b ↔ a ≡ b [MOD 2 ^ count] := by
  constructor
  · intro h
    apply Nat.eq_of_testBit_eq
    intro bit
    rw [Nat.testBit_mod_two_pow, Nat.testBit_mod_two_pow]
    by_cases hbit : bit < count
    · rw [h bit hbit]
    · simp [hbit]
  · intro h bit hbit
    have hmod := congrArg (·.testBit bit) h
    simpa [Nat.testBit_mod_two_pow, hbit] using hmod

theorem card_sameLow (hle : count ≤ k) (b : Nat) :
    ((Finset.range (2 ^ k)).filter fun a => SameLow count a b).card = 2 ^ (k - count) := by
  have hcount := Nat.count_modEq_card (2 ^ k) (Nat.two_pow_pos count) b
  rw [Nat.mod_eq_zero_of_dvd (Nat.pow_dvd_pow 2 hle), if_neg (Nat.not_lt_zero _), Nat.add_zero,
    Nat.pow_div hle (by omega), Nat.count_eq_card_filter_range] at hcount
  rw [← hcount]
  congr 1
  apply Finset.filter_congr
  intro a _
  exact sameLow_iff_mod

end Bits

/-- The ranks that differ from `rank` in bits below `step` only. -/
def block (k step rank : Nat) : Multiset Nat :=
  (Multiset.range (2 ^ k)).filter fun other => other >>> step = rank >>> step

section Block

variable {k step rank : Nat}

theorem block_zero (hrank : rank < 2 ^ k) : block k 0 rank = {rank} := by
  have hmem : rank ∈ Multiset.range (2 ^ k) := Multiset.mem_range.2 hrank
  simp only [block, Nat.shiftRight_zero]
  rw [Multiset.filter_eq', Multiset.count_eq_one_of_mem (Multiset.nodup_range _) hmem,
    Multiset.replicate_one]

theorem block_all (hrank : rank < 2 ^ k) : block k k rank = Multiset.range (2 ^ k) := by
  rw [block, Multiset.filter_eq_self]
  intro other hother
  rw [Nat.shiftRight_eq_div_pow, Nat.shiftRight_eq_div_pow, Nat.div_eq_of_lt hrank,
    Nat.div_eq_of_lt (Multiset.mem_range.1 hother)]

theorem shiftRight_eq_iff {a b : Nat} :
    a >>> step = b >>> step ↔ ∀ bit, step ≤ bit → a.testBit bit = b.testBit bit := by
  constructor
  · intro h bit hbit
    have hshift := congrArg (·.testBit (bit - step)) h
    simpa [Nat.testBit_shiftRight, Nat.add_sub_cancel' hbit] using hshift
  · intro h
    apply Nat.eq_of_testBit_eq
    intro bit
    rw [Nat.testBit_shiftRight, Nat.testBit_shiftRight]
    exact h (step + bit) (Nat.le_add_right step bit)

theorem shiftRight_succ_eq_iff {a b : Nat} :
    a >>> (step + 1) = b >>> (step + 1) ↔
      a >>> step = b >>> step ∨ a >>> step = (b ^^^ 2 ^ step) >>> step := by
  rw [shiftRight_eq_iff, shiftRight_eq_iff, shiftRight_eq_iff]
  constructor
  · intro h
    by_cases hlast : a.testBit step = b.testBit step
    · left
      intro bit hbit
      rcases Nat.eq_or_lt_of_le hbit with rfl | hlt
      · exact hlast
      · exact h bit hlt
    · right
      intro bit hbit
      rcases Nat.eq_or_lt_of_le hbit with rfl | hlt
      · rw [testBit_flip]
        exact Bool.eq_not_of_ne hlast
      · rw [testBit_flip_of_ne (by omega)]
        exact h bit hlt
  · rintro (h | h) bit hbit
    · exact h bit (Nat.le_of_succ_le hbit)
    · rw [h bit (Nat.le_of_succ_le hbit), testBit_flip_of_ne (by omega)]

/-- A step joins the blocks of two partners. -/
theorem block_succ (k step rank : Nat) :
    block k (step + 1) rank = block k step rank + block k step (rank ^^^ 2 ^ step) := by
  have hapart : ∀ other : Nat, ¬(other >>> step = rank >>> step ∧
      other >>> step = (rank ^^^ 2 ^ step) >>> step) := by
    rintro other ⟨hrank, hpartner⟩
    have hbit := shiftRight_eq_iff.1 (hrank.symm.trans hpartner) step (Nat.le_refl step)
    rw [testBit_flip] at hbit
    simp at hbit
  rw [block, block, block, Multiset.filter_add_filter]
  simp only [shiftRight_succ_eq_iff, hapart, Multiset.filter_false, add_zero]

end Block

/-- The chunks that the `step`-th send of the first phase takes along: those that agree with the
rank below the bit of the step and with its partner in that bit. -/
def added (k rank step : Nat) : Finset Nat :=
  (Finset.range (2 ^ k)).filter fun chunk =>
    SameLow step chunk rank ∧ chunk.testBit step = (rank ^^^ 2 ^ step).testBit step

/-- The chunks that the `step`-th send of the second phase takes along: those that agree with the
rank up to the bit of the step, which is one lower every time. -/
def placed (k rank step : Nat) : Finset Nat :=
  (Finset.range (2 ^ k)).filter fun chunk => SameLow (k - 1 - step + 1) chunk rank

/-- What the messages of recursive doubling carry on `2 ^ k` ranks. -/
def meaning (tag secondTag : Tag) (k : Nat) : Meaning :=
  .twoPhases tag secondTag (added k) (placed k)

/-- The bit in which partners differ in a round: up in the first phase, down in the second. -/
def bitOf (k round : Nat) : Nat := if round < k then round else 2 * k - 1 - round

def butterflyRounds (r : Reduction) (secondTag : Tag) (k : Nat) : Rounds :=
  chainedRounds (2 ^ k) r.cost (twoPhases k r.tag secondTag)
    (Pair.flips (steps r.size r.tag secondTag k))

theorem count_butterflyRounds (r : Reduction) (secondTag : Tag) (k : Nat) :
    (butterflyRounds r secondTag k).count = 2 * k :=
  length_twoPhases _ _ _

theorem chainedPlans (r : Reduction) (secondTag : Tag) (k : Nat) :
    ChainedPlans (2 ^ k) r.cost (twoPhases k r.tag secondTag)
      (Pair.flips (steps r.size r.tag secondTag k)) (plan r secondTag (2 ^ k)) where
  flatten := by
    intro rank
    rw [flatten_plan, Nat.log2_two_pow]
  mirrored := mirrored_flips r.size r.tag secondTag k
  tags_eq := by
    intro rank
    simp [Pair.flips, steps, twoPhases, Function.comp_def]

theorem lockstep (r : Reduction) (secondTag : Tag) (k : Nat) :
    (Schedule.onWorld (2 ^ k) (plan r secondTag (2 ^ k))).Lockstep
      (butterflyRounds r secondTag k) :=
  (chainedPlans r secondTag k).lockstep

section Values

variable {r : Reduction} {secondTag : Tag} {k round rank chunk : Nat}

/-- The steps of a round: its bit and half of what is left of the data. -/
theorem getElem?_steps (size : Nat) (tag secondTag : Tag) (hround : round < 2 * k) :
    (steps size tag secondTag k)[round]? =
      some (bitOf k round, size >>> (bitOf k round + 1), if round < k then tag else secondTag) := by
  rw [steps, bitOf]
  split
  case isTrue hlt =>
    rw [List.getElem?_append_left (by simpa using hlt)]
    simp [hlt]
  case isFalse hge =>
    rw [List.getElem?_append_right (by simpa using hge), List.length_map, List.length_range,
      List.getElem?_reverse (by simp; omega)]
    have hbit : k - 1 - (round - k) = 2 * k - 1 - round := by omega
    have hlt : 2 * k - 1 - round < k := by omega
    simp [hbit, hlt]

theorem source_eq (hround : round < 2 * k) (rank : Nat) :
    (butterflyRounds r secondTag k).source rank round = rank ^^^ 2 ^ bitOf k round := by
  rw [butterflyRounds, chainedRounds]
  simp only [Pair.flips, List.getElem?_map, getElem?_steps _ _ _ hround, Option.map_some,
    Option.elim_some]

theorem mem_added :
    chunk ∈ added k rank round ↔
      chunk < 2 ^ k ∧ SameLow (round + 1) chunk (rank ^^^ 2 ^ round) := by
  rw [added, Finset.mem_filter, Finset.mem_range, sameLow_succ, sameLow_flip (Nat.le_refl round)]

theorem mem_placed :
    chunk ∈ placed k rank round ↔ chunk < 2 ^ k ∧ SameLow (k - 1 - round + 1) chunk rank := by
  rw [placed, Finset.mem_filter, Finset.mem_range]

/-- What a rank sends in a round of the first phase agrees with its partner up to the bit of the
round. -/
theorem mem_carried_first (hne : r.tag ≠ secondTag) (hround : round < k) :
    chunk ∈ (butterflyRounds r secondTag k).carried (meaning r.tag secondTag k) rank round ↔
      chunk < 2 ^ k ∧ SameLow (round + 1) chunk (rank ^^^ 2 ^ round) := by
  rw [butterflyRounds, meaning, carried_twoPhases hne (by omega), if_pos hround, mem_added]

/-- What a rank sends in a round of the second phase agrees with the rank itself. -/
theorem mem_carried_second (hne : r.tag ≠ secondTag) (hround : ¬round < k)
    (hcount : round < 2 * k) :
    chunk ∈ (butterflyRounds r secondTag k).carried (meaning r.tag secondTag k) rank round ↔
      chunk < 2 ^ k ∧ SameLow (bitOf k round + 1) chunk rank := by
  have hbit : k - 1 - (round - k) = bitOf k round := by
    rw [bitOf, if_neg hround]
    omega
  rw [butterflyRounds, meaning, carried_twoPhases hne hcount, if_neg hround, mem_placed, hbit]

/-- After some steps of the first phase, a rank holds the contributions of the block that the steps
have joined, in every chunk that agrees with it so far. -/
theorem value_first (hne : r.tag ≠ secondTag) (hround : round ≤ k) (hrank : rank < 2 ^ k)
    (hchunk : chunk < 2 ^ k) (hsame : SameLow round chunk rank) :
    (butterflyRounds r secondTag k).value (meaning r.tag secondTag k) round rank chunk =
      block k round rank := by
  induction round generalizing rank with
  | zero => exact (block_zero hrank).symm
  | succ round ih =>
    have hlt : round < k := Nat.lt_of_succ_le hround
    have hbit : bitOf k round = round := if_pos hlt
    have hlow := hsame.mono (Nat.le_succ round)
    have hsource : (butterflyRounds r secondTag k).source rank round = rank ^^^ 2 ^ round := by
      rw [source_eq (by omega), hbit]
    have hmem : chunk ∈ (butterflyRounds r secondTag k).carried (meaning r.tag secondTag k)
        ((butterflyRounds r secondTag k).source rank round) round := by
      rw [hsource, mem_carried_first hne hlt, flip_flip]
      exact ⟨hchunk, hsame⟩
    have hadds : (meaning r.tag secondTag k).adds ((butterflyRounds r secondTag k).tag round) =
        true := adds_first hlt
    rw [Rounds.value_of_mem hmem, if_pos hadds, hsource, ih (by omega) hrank hlow,
      ih (by omega) (flip_lt hrank hlt) ((sameLow_flip (Nat.le_refl round)).2 hlow), block_succ]

/-- After some steps of the second phase, a rank holds complete sums in every chunk that agrees with
it in the bits of the steps to come. -/
theorem value_second (hne : r.tag ≠ secondTag) (hround : round ≤ k) (hrank : rank < 2 ^ k)
    (hchunk : chunk < 2 ^ k) (hsame : SameLow (k - round) chunk rank) :
    (butterflyRounds r secondTag k).value (meaning r.tag secondTag k) (k + round) rank chunk =
      Multiset.range (2 ^ k) := by
  induction round generalizing rank with
  | zero => exact (value_first hne (Nat.le_refl k) hrank hchunk hsame).trans (block_all hrank)
  | succ round ih =>
    have hbit : bitOf k (k + round) = k - (round + 1) := by
      rw [bitOf, if_neg (by omega)]
      omega
    have hleft : k - round = k - (round + 1) + 1 := by omega
    have hsource : (butterflyRounds r secondTag k).source rank (k + round) =
        rank ^^^ 2 ^ (k - (round + 1)) := by
      rw [source_eq (by omega), hbit]
    have hmem : chunk ∈ (butterflyRounds r secondTag k).carried (meaning r.tag secondTag k)
        ((butterflyRounds r secondTag k).source rank (k + round)) (k + round) ↔
          chunk < 2 ^ k ∧ SameLow (k - round) chunk (rank ^^^ 2 ^ (k - (round + 1))) := by
      rw [hsource, mem_carried_second hne (by omega) (by omega), hbit, hleft]
    have hadds : ¬(meaning r.tag secondTag k).adds
        ((butterflyRounds r secondTag k).tag (k + round)) = true :=
      adds_second hne (by omega) (by omega)
    rw [← Nat.add_assoc]
    -- The bit of the step tells which of the two partners has had the complete sum before.
    by_cases hlast : chunk.testBit (k - (round + 1)) = rank.testBit (k - (round + 1))
    · have hkept : SameLow (k - round) chunk rank := by
        rw [hleft, sameLow_succ]
        exact ⟨hsame, hlast⟩
      have hnot : chunk ∉ (butterflyRounds r secondTag k).carried (meaning r.tag secondTag k)
          ((butterflyRounds r secondTag k).source rank (k + round)) (k + round) := by
        rw [hmem, hleft, sameLow_succ_flip]
        exact fun h => h.2.2 hlast
      rw [Rounds.value_of_notMem hnot, ih (by omega) hrank hkept]
    · have hpartner : SameLow (k - round) chunk (rank ^^^ 2 ^ (k - (round + 1))) := by
        rw [hleft, sameLow_succ_flip]
        exact ⟨hsame, hlast⟩
      rw [Rounds.value_of_mem (hmem.2 ⟨hchunk, hpartner⟩), if_neg hadds, hsource,
        ih (by omega) (flip_lt hrank (by omega)) hpartner]

theorem value_all (hne : r.tag ≠ secondTag) (hrank : rank < 2 ^ k) (hchunk : chunk < 2 ^ k) :
    (butterflyRounds r secondTag k).value (meaning r.tag secondTag k) (2 * k) rank chunk =
      Multiset.range (2 ^ k) := by
  have hnone : SameLow (k - k) chunk rank := by
    rw [Nat.sub_self]
    exact fun bit hbit => absurd hbit (Nat.not_lt_zero bit)
  have hlast := value_second hne (Nat.le_refl k) hrank hchunk hnone
  rwa [← Nat.two_mul] at hlast

end Values

section Races

variable {r : Reduction} {secondTag : Tag} {k round later rank chunk : Nat}

theorem mem_carried_source (hne : r.tag ≠ secondTag) (hlater : later < 2 * k)
    (hback : chunk ∈ (butterflyRounds r secondTag k).carried (meaning r.tag secondTag k)
      ((butterflyRounds r secondTag k).source rank later) later) :
    if later < k then SameLow (later + 1) chunk rank
    else SameLow (bitOf k later) chunk rank ∧
      chunk.testBit (bitOf k later) ≠ rank.testBit (bitOf k later) := by
  rw [source_eq hlater] at hback
  split
  case isTrue hfirst =>
    have hbit : bitOf k later = later := if_pos hfirst
    rw [mem_carried_first hne hfirst, hbit, flip_flip] at hback
    exact hback.2
  case isFalse hsecond =>
    rw [mem_carried_second hne hsecond hlater, sameLow_succ_flip] at hback
    exact hback.2

/-- A chunk that a rank gives away in a round comes back to it when that round is undone. -/
theorem undone (hne : r.tag ≠ secondTag) (hle : round ≤ later) (hlater : later < 2 * k)
    (hsent : chunk ∈ (butterflyRounds r secondTag k).carried (meaning r.tag secondTag k) rank round)
    (hback : chunk ∈ (butterflyRounds r secondTag k).carried (meaning r.tag secondTag k)
      ((butterflyRounds r secondTag k).source rank later) later) :
    round < k ∧ ¬later < k ∧ bitOf k later = round := by
  have hreceived := mem_carried_source hne hlater hback
  by_cases hfirst : round < k
  · obtain ⟨-, hsame⟩ := (mem_carried_first hne hfirst).1 hsent
    obtain ⟨hlow, hdiffers⟩ := sameLow_succ_flip.1 hsame
    split at hreceived
    case isTrue => exact absurd (hreceived round (by omega)) hdiffers
    case isFalse hsecond =>
      refine ⟨hfirst, hsecond, ?_⟩
      rcases Nat.lt_trichotomy (bitOf k later) round with hlt | heq | hgt
      · exact absurd (hlow _ hlt) hreceived.2
      · exact heq
      · exact absurd (hreceived.1 round hgt) hdiffers
  · obtain ⟨-, hsame⟩ := (mem_carried_second hne hfirst (by omega)).1 hsent
    rw [if_neg (by omega)] at hreceived
    refine absurd (hsame _ ?_) hreceived.2
    rw [bitOf, bitOf, if_neg hfirst, if_neg (by omega)]
    omega

theorem raceFree (hne : r.tag ≠ secondTag) (k : Nat) :
    (Schedule.onWorld (2 ^ k) (plan r secondTag (2 ^ k))).RaceFree (butterflyRounds r secondTag k)
      (meaning r.tag secondTag k) := by
  intro rank hrank round later hle hlater chunk hsent hback
  change rank < 2 ^ k at hrank
  have hcount := hlater
  rw [count_butterflyRounds] at hcount
  obtain ⟨hfirst, hsecond, hbit⟩ := undone hne hle hcount hsent hback
  have hl := lockstep r secondTag k
  have hpartner : rank ^^^ 2 ^ round < (butterflyRounds r secondTag k).ranks := flip_lt hrank hfirst
  have hbitRound : bitOf k round = round := if_pos hfirst
  -- The partner gets the chunk, goes on to the round that undoes this one, and sends it back.
  have hgive := hl.meets _ hpartner round (by omega)
  have hgo := (hl.transGen_chained hpartner (show round < later by omega) hlater).1
  have hreturn := hl.meets rank hrank later hlater
  rw [source_eq (by omega), hbitRound, flip_flip] at hgive
  rw [source_eq hcount, hbit] at hreturn
  have hstart : (Schedule.onWorld (2 ^ k) (plan r secondTag (2 ^ k))).Causes
      ((butterflyRounds r secondTag k).sendId rank round)
      ((butterflyRounds r secondTag k).recvId (rank ^^^ 2 ^ round) round) := Or.inr hgive
  exact (Relation.TransGen.head hstart hgo).tail (Or.inr hreturn)

end Races

section Sizes

variable {r : Reduction} {secondTag : Tag} {k round rank : Nat}

theorem card_carried (hne : r.tag ≠ secondTag) (hround : round < 2 * k) (rank : Nat) :
    ((butterflyRounds r secondTag k).carried (meaning r.tag secondTag k) rank round).card =
      2 ^ (k - (bitOf k round + 1)) := by
  have hfilter : ∀ other, (∀ chunk, chunk ∈ (butterflyRounds r secondTag k).carried
      (meaning r.tag secondTag k) rank round ↔
        chunk < 2 ^ k ∧ SameLow (bitOf k round + 1) chunk other) →
      (butterflyRounds r secondTag k).carried (meaning r.tag secondTag k) rank round =
        (Finset.range (2 ^ k)).filter fun chunk => SameLow (bitOf k round + 1) chunk other := by
    intro other hmem
    ext chunk
    rw [hmem, Finset.mem_filter, Finset.mem_range]
  have hbit : bitOf k round + 1 ≤ k := by
    unfold bitOf
    split <;> omega
  by_cases hfirst : round < k
  · have hbitRound : bitOf k round = round := if_pos hfirst
    rw [hfilter (rank ^^^ 2 ^ round) fun chunk => by rw [mem_carried_first hne hfirst, hbitRound],
      card_sameLow hbit]
  · rw [hfilter rank fun chunk => mem_carried_second hne hfirst hround, card_sameLow hbit]

/-- Half of the data for every bit up to that of the round, in chunks. -/
theorem size_eq (hdvd : 2 ^ k ∣ r.size) (hne : r.tag ≠ secondTag) (hround : round < 2 * k)
    (rank : Nat) :
    r.size >>> (bitOf k round + 1) =
      ((butterflyRounds r secondTag k).carried (meaning r.tag secondTag k) rank round).card *
        (r.size / 2 ^ k) := by
  obtain ⟨chunk, hsize⟩ := hdvd
  have hbit : bitOf k round + 1 ≤ k := by
    unfold bitOf
    split <;> omega
  have hpow : 2 ^ k = 2 ^ (bitOf k round + 1) * 2 ^ (k - (bitOf k round + 1)) := by
    rw [← Nat.pow_add, Nat.add_sub_cancel' hbit]
  rw [card_carried hne hround, hsize, Nat.mul_div_cancel_left _ (Nat.two_pow_pos k),
    Nat.shiftRight_eq_div_pow, hpow, Nat.mul_assoc, Nat.mul_div_cancel_left _ (Nat.two_pow_pos _)]

/-- A send has the size of the chunks that it takes along. -/
theorem size_send (hdvd : 2 ^ k ∣ r.size) (hne : r.tag ≠ secondTag) {id : OpId}
    {peer size : Nat} {tag : Tag} {requires : List OpId}
    (hop : (Schedule.onWorld (2 ^ k) (plan r secondTag (2 ^ k))).op? id =
      some ⟨.send peer size tag, requires⟩) :
    size = ((Schedule.onWorld (2 ^ k) (plan r secondTag (2 ^ k))).cargo
      (meaning r.tag secondTag k) id tag).card * (r.size / 2 ^ k) := by
  have hchained := chainedPlans r secondTag k
  obtain ⟨hrank, ⟨round, pair, hpair, hindex, haction⟩ | ⟨round, pair, hpair, hindex, haction⟩ |
    ⟨-, -, -, -, -, haction⟩⟩ := hchained.paired.cases_op hop
  · have hround : round < 2 * k := by simpa using hchained.lt_length hpair
    have hid : id = (butterflyRounds r secondTag k).sendId id.rank round :=
      congrArg (OpId.mk id.rank) hindex
    rw [Pair.flips, List.getElem?_map, getElem?_steps _ _ _ hround] at hpair
    obtain rfl := Option.some.inj hpair
    obtain ⟨-, rfl, htag⟩ := Action.send.inj haction
    have hround' : round < (butterflyRounds r secondTag k).count := by
      rwa [count_butterflyRounds]
    have htag' : tag = (butterflyRounds r secondTag k).tag round :=
      htag.trans (getD_twoPhases hround).symm
    have hordinal := (lockstep r secondTag k).ordinal id.rank hrank round hround'
    rw [← hid, ← htag'] at hordinal
    have hsize := size_eq hdvd hne hround id.rank
    rwa [Rounds.carried, ← htag', ← hordinal] at hsize
  · cases haction
  · cases haction

end Sizes

/-- Whatever the size of the data and the cost of a computation: on a power of two of ranks,
recursive doubling whose second tag exists is built, it can run, and every order that respects what
its operations wait for leaves at every rank, in every chunk, the contribution of each rank exactly
once. If the chunks divide the data, the size of every send and of every receive is that of the
chunks in the message. -/
theorem butterfly_allreduce_sums (r : Reduction) (htag : r.tag < Tag.last)
    (k : Nat) :
    ∃ s, (allreduce r).schedule (2 ^ k) = .ok s ∧ (∃ order, s.Order order) ∧
      (∀ order, s.Order order → ∀ rank < 2 ^ k, ∀ chunk < 2 ^ k,
        (s.execute (meaning r.tag (r.tag + 1) k) order).held rank chunk =
          Multiset.range (2 ^ k)) ∧
      (2 ^ k ∣ r.size → ∀ id peer size tag requires,
        (s.op? id = some ⟨.send peer size tag, requires⟩ →
          size = (s.cargo (meaning r.tag (r.tag + 1) k) id tag).card * (r.size / 2 ^ k)) ∧
        (s.op? id = some ⟨.recv peer size tag, requires⟩ → ∃ sender, s.Matched sender id ∧
          size = (s.cargo (meaning r.tag (r.tag + 1) k) sender tag).card * (r.size / 2 ^ k))) := by
  have hne := r.tag_ne_secondTag
  have hplans : allreduce r (2 ^ k) = .ok (plan r (r.tag + 1) (2 ^ k)) := by
    rw [allreduce_eq, if_pos (isPowerOfTwo_iff.2 ⟨k, rfl⟩), r.secondTag_eq htag]
    rfl
  have hleveled := (chainedPlans r (r.tag + 1) k).leveled
  refine ⟨_, Pattern.schedule_eq (Nat.two_pow_pos k) hplans (coherent_plan r (r.tag + 1) k),
    hleveled.exists_order, ?_, ?_⟩
  · intro order horder rank hrank chunk hchunk
    have hl := lockstep r (r.tag + 1) k
    rw [hl.execute_eq (raceFree hne k) horder hrank chunk, count_butterflyRounds]
    exact value_all hne hrank hchunk
  · intro hdvd id peer size tag requires
    refine ⟨fun hsend => size_send hdvd hne hsend, fun hrecv => ?_⟩
    obtain ⟨sender, hmatched⟩ := hleveled.agrees.exists_sender hrecv
    obtain ⟨size', tag', requires₁, requires', hsend, hrecv'⟩ :=
      hleveled.agrees.size_of_matched hmatched
    obtain ⟨⟨-, rfl, rfl⟩, -⟩ := by simpa [hrecv] using hrecv'
    exact ⟨sender, hmatched, size_send hdvd hne hsend⟩

theorem butterfly_allreduce_sums_four :
    (7 : Tag) < Tag.last ∧
    ∃ s, (allreduce ⟨16, 7, 5⟩).schedule (2 ^ 2) = .ok s ∧ (∃ order, s.Order order) ∧
      (∀ order, s.Order order → ∀ rank < 2 ^ 2, ∀ chunk < 2 ^ 2,
        (s.execute (meaning 7 (7 + 1) 2) order).held rank chunk = Multiset.range (2 ^ 2)) ∧
      (2 ^ 2 ∣ 16 → ∀ id peer size tag requires,
        (s.op? id = some ⟨.send peer size tag, requires⟩ →
          size = (s.cargo (meaning 7 (7 + 1) 2) id tag).card * (16 / 2 ^ 2)) ∧
        (s.op? id = some ⟨.recv peer size tag, requires⟩ → ∃ sender, s.Matched sender id ∧
          size = (s.cargo (meaning 7 (7 + 1) 2) sender tag).card * (16 / 2 ^ 2))) :=
  ⟨by decide, butterfly_allreduce_sums ⟨16, 7, 5⟩ (by decide) 2⟩

end Collectives.Butterfly
