import Collectives.Proofs.Barrier
import Collectives.Proofs.CompleteExchange
import Collectives.Proofs.Tree
import Mathlib.Data.Finset.Card
import Mathlib.Data.Nat.Log
import Mathlib.Order.Bounds.Basic

/-!
# How news spreads in a dissemination

When each round doubles the distance, a rank has heard after `i` rounds of the ranks less than
`2 ^ i` behind it: of those it knew, and of those that its source knew, which are as many again. The
rounds are as many as it takes to double 1 up to the number of ranks, also where the distance is a
64-bit word.
-/

namespace Collectives

theorem doublings_le_iff {ranks turns : Nat} : doublings ranks ≤ turns ↔ ranks ≤ 2 ^ turns := by
  constructor
  · intro h
    by_contra hlt
    have := lt_doublings (Nat.lt_of_not_le hlt)
    omega
  · intro h
    rw [doublings]
    split
    case isTrue => exact Nat.zero_le _
    case isFalse hmany =>
      rw [Nat.succ_le_iff, Nat.log2_lt (by omega)]
      omega

/-- The doublings are the logarithm to base 2, rounded up. -/
theorem doublings_eq_clog (ranks : Nat) : doublings ranks = Nat.clog 2 ranks := by
  apply Nat.le_antisymm
  · exact doublings_le_iff.2 (Nat.le_pow_clog (by omega) ranks)
  · exact Nat.clog_le_of_le_pow (doublings_le_iff.1 (Nat.le_refl _))

theorem isLeast_doublings (ranks : Nat) : IsLeast {turns | ranks ≤ 2 ^ turns} (doublings ranks) :=
  ⟨doublings_le_iff.1 (Nat.le_refl _), fun _ hturns => doublings_le_iff.2 hturns⟩

namespace Dissemination

/-- The state of the search for partners on 64-bit words: the next distance, and what is found. -/
structure Search where
  distance : UInt64 := 1
  found : List (UInt64 × UInt64) := []

namespace Search

def turn (rank ranks : UInt64) (search : Search) : Search where
  distance := search.distance <<< 1
  found := search.found ++
    [((rank + search.distance) % ranks, (rank + ranks - search.distance) % ranks)]

/-- The search turns as long as the distance is below `ranks`, and no turn adds up to more than a
word holds. It ends after a number of turns with what it has found then. -/
inductive Ends (rank ranks : UInt64) : (turns : Nat) → Search → List (UInt64 × UInt64) → Prop where
  | stop {search : Search} (h : ranks ≤ search.distance) : Ends rank ranks 0 search search.found
  | turn {turns : Nat} {search : Search} {found : List (UInt64 × UInt64)}
      (h : search.distance < ranks)
      (hahead : rank.toNat + search.distance.toNat < UInt64.size)
      (hbehind : rank.toNat + ranks.toNat < UInt64.size)
      (rest : Ends rank ranks turns (search.turn rank ranks) found) :
      Ends rank ranks (turns + 1) search found

end Search

/-- The ranks that a rank has heard of after some rounds, when in each it hears of all those that
its source has heard of so far. -/
def heard (ranks : Nat) : (rounds rank : Nat) → Finset Nat
  | 0, rank => {rank}
  | round + 1, rank =>
    heard ranks round rank ∪
      (partners rank ranks)[round]?.elim ∅ fun partner => heard ranks round partner.2

/-- The rank itself and those behind it, `count` in all. -/
def upTo (count ranks rank : Nat) : Finset Nat :=
  (Finset.range count).image fun distance => (rank + ranks - distance) % ranks

variable {ranks rank round : Nat}

theorem getElem?_partners (rank ranks round : Nat) :
    (partners rank ranks)[round]? =
      if 2 ^ round < ranks then
        some ((rank + 2 ^ round) % ranks, (rank + ranks - 2 ^ round) % ranks)
      else none := by
  rw [partners, List.getElem?_map, getElem?_distancesFrom, Nat.zero_add]
  split <;> rfl

theorem lt_doublings_iff : round < doublings ranks ↔ 2 ^ round < ranks := by
  rw [← Nat.not_le, doublings_le_iff, Nat.not_le]

theorem length_distancesFrom (ranks : Nat) :
    (distancesFrom 0 ranks).length = doublings ranks := by
  apply Nat.le_antisymm
  · rw [← List.getElem?_eq_none_iff, getElem?_distancesFrom, Nat.zero_add, if_neg]
    exact Nat.not_lt.2 (doublings_le_iff.1 (Nat.le_refl _))
  · rw [doublings_le_iff]
    by_contra hlt
    have hnone := getElem?_distancesFrom 0 ranks (distancesFrom 0 ranks).length
    rw [Nat.zero_add, if_pos (Nat.lt_of_not_le hlt), List.getElem?_eq_none (Nat.le_refl _)] at hnone
    cases hnone

section Words

variable {step : Nat} {search : Search}

theorem toNat_word {n : Nat} (hn : n ≤ 2 ^ 63) : (UInt64.ofNat n).toNat = n :=
  UInt64.toNat_ofNat_of_lt' (show n < 2 ^ 64 by omega)

/-- A turn of the search goes on to the next power of two and finds the two partners of this one.
The distance never leaves the words: one that is doubled lies below `2 ^ 63`. -/
theorem toNat_turn (hranks : ranks ≤ 2 ^ 63) (hrank : rank < ranks) (hlt : 2 ^ step < ranks)
    (hdistance : search.distance.toNat = 2 ^ step) :
    (search.turn (.ofNat rank) (.ofNat ranks)).distance.toNat = 2 ^ (step + 1) ∧
      (search.turn (.ofNat rank) (.ofNat ranks)).found.map (Prod.map UInt64.toNat UInt64.toNat) =
        search.found.map (Prod.map UInt64.toNat UInt64.toNat) ++
          [((rank + 2 ^ step) % ranks, (rank + ranks - 2 ^ step) % ranks)] := by
  have hwordRank := toNat_word (hrank.le.trans hranks)
  have hwordRanks := toNat_word hranks
  have hahead : ((UInt64.ofNat rank + search.distance) % UInt64.ofNat ranks).toNat =
      (rank + 2 ^ step) % ranks := by
    rw [UInt64.toNat_mod, UInt64.toNat_add, hwordRank, hwordRanks, hdistance,
      Nat.mod_eq_of_lt (show rank + 2 ^ step < 2 ^ 64 by omega)]
  have hsum : (UInt64.ofNat rank + .ofNat ranks).toNat = rank + ranks := by
    rw [UInt64.toNat_add, hwordRank, hwordRanks, Nat.mod_eq_of_lt (by omega)]
  have hbehind : ((UInt64.ofNat rank + .ofNat ranks - search.distance) %
      UInt64.ofNat ranks).toNat = (rank + ranks - 2 ^ step) % ranks := by
    have hle : search.distance ≤ UInt64.ofNat rank + .ofNat ranks := by
      rw [UInt64.le_iff_toNat_le, hsum, hdistance]
      omega
    rw [UInt64.toNat_mod, UInt64.toNat_sub_of_le _ _ hle, hsum, hwordRanks, hdistance]
  constructor
  · rw [Search.turn, UInt64.toNat_shiftLeft, hdistance, Nat.pow_succ]
    simp
    omega
  · rw [Search.turn]
    simp [hahead, hbehind]

/-- What is found on words is what there is to be found, from any distance on. -/
theorem ends_from (hranks : ranks ≤ 2 ^ 63) (hrank : rank < ranks)
    (hdistance : search.distance.toNat = 2 ^ step) :
    ∃ found, Search.Ends (.ofNat rank) (.ofNat ranks) (distancesFrom step ranks).length search
        found ∧
      found.map (Prod.map UInt64.toNat UInt64.toNat) =
        search.found.map (Prod.map UInt64.toNat UInt64.toNat) ++
          (distancesFrom step ranks).map fun distance =>
            ((rank + distance) % ranks, (rank + ranks - distance) % ranks) := by
  have hwordRank := toNat_word (hrank.le.trans hranks)
  have hwordRanks := toNat_word hranks
  fun_induction distancesFrom step ranks generalizing search with
  | case1 step hlt ih =>
    rw [Nat.one_shiftLeft] at hlt ⊢
    obtain ⟨hdouble, hturn⟩ := toNat_turn hranks hrank hlt hdistance
    obtain ⟨found, hends, hfound⟩ := ih hdouble
    refine ⟨found, .turn ?below ?ahead ?behind hends, ?_⟩
    case below =>
      rw [UInt64.lt_iff_toNat_lt, hdistance, hwordRanks]
      exact hlt
    case ahead =>
      rw [hwordRank, hdistance]
      show rank + 2 ^ step < 2 ^ 64
      omega
    case behind =>
      rw [hwordRank, hwordRanks]
      show rank + ranks < 2 ^ 64
      omega
    rw [hfound, hturn, List.append_assoc, List.map_cons, List.singleton_append]
  | case2 step hge =>
    rw [Nat.one_shiftLeft] at hge
    refine ⟨search.found, .stop ?_, by simp⟩
    rw [UInt64.le_iff_toNat_le, hdistance, hwordRanks]
    omega

end Words

/-- In terms of how far the rank lies ahead of the others. -/
theorem mem_upTo {count other : Nat} (hrank : rank < ranks) (hcount : count ≤ ranks) :
    other ∈ upTo count ranks rank ↔ other < ranks ∧ ahead ranks other rank < count := by
  rw [upTo, Finset.mem_image]
  constructor
  · rintro ⟨distance, hdistance, rfl⟩
    have hlt := Finset.mem_range.1 hdistance
    have hback := mod_cases (show rank + ranks - distance < 2 * ranks by omega)
    generalize (rank + ranks - distance) % ranks = other at hback ⊢
    have hahead := mod_cases (show rank + ranks - other < 2 * ranks by omega)
    rw [ahead]
    omega
  · rintro ⟨hother, hlt⟩
    refine ⟨_, Finset.mem_range.2 hlt, ?_⟩
    rw [ahead] at hlt ⊢
    have hahead := mod_cases (show rank + ranks - other < 2 * ranks by omega)
    generalize (rank + ranks - other) % ranks = distance at hahead hlt ⊢
    have hback := mod_cases (show rank + ranks - distance < 2 * ranks by omega)
    omega

theorem upTo_all (hrank : rank < ranks) : upTo ranks ranks rank = Finset.range ranks := by
  ext other
  rw [mem_upTo hrank (Nat.le_refl ranks), Finset.mem_range, and_iff_left_iff_imp]
  exact fun hother => Nat.mod_lt _ (Nat.zero_lt_of_lt hother)

/-- Those of a rank and those of the rank `count` behind it are twice as many together. -/
theorem upTo_double {count : Nat} (hrank : rank < ranks) (hcount : count < ranks) :
    upTo count ranks rank ∪ upTo count ranks ((rank + ranks - count) % ranks) =
      upTo (min (2 * count) ranks) ranks rank := by
  have hbehind := Nat.mod_lt (rank + ranks - count) (Nat.zero_lt_of_lt hrank)
  ext other
  rw [Finset.mem_union, mem_upTo hrank hcount.le, mem_upTo hbehind hcount.le,
    mem_upTo hrank (Nat.min_le_right _ _), ← and_or_left, and_congr_right_iff]
  intro hother
  have hback := mod_cases (show rank + ranks - count < 2 * ranks by omega)
  rw [ahead, ahead]
  generalize (rank + ranks - count) % ranks = behind at hback hbehind ⊢
  have hfirst := mod_cases (show rank + ranks - other < 2 * ranks by omega)
  have hsecond := mod_cases (show behind + ranks - other < 2 * ranks by omega)
  omega

/-- A round joins what a rank has heard with what its source has heard. -/
theorem heard_succ (hround : 2 ^ round < ranks) :
    heard ranks (round + 1) rank =
      heard ranks round rank ∪ heard ranks round ((rank + ranks - 2 ^ round) % ranks) := by
  rw [heard, getElem?_partners, if_pos hround]
  rfl

theorem heard_eq (hrank : rank < ranks) (hround : round ≤ doublings ranks) :
    heard ranks round rank = upTo (min (2 ^ round) ranks) ranks rank := by
  induction round generalizing rank with
  | zero =>
    rw [Nat.pow_zero, Nat.min_eq_left (Nat.zero_lt_of_lt hrank), heard, upTo]
    simp [Nat.mod_eq_of_lt hrank]
  | succ round ih =>
    have hlt : 2 ^ round < ranks := lt_doublings_iff.1 (Nat.lt_of_succ_le hround)
    have hbehind := Nat.mod_lt (rank + ranks - 2 ^ round) (Nat.zero_lt_of_lt hrank)
    have hmin : min (2 ^ round) ranks = 2 ^ round := Nat.min_eq_left hlt.le
    rw [heard_succ hlt, ih hrank (Nat.le_of_succ_le hround),
      ih hbehind (Nat.le_of_succ_le hround), hmin, upTo_double hrank hlt, Nat.pow_succ']

theorem card_upTo_le (count ranks rank : Nat) : (upTo count ranks rank).card ≤ count :=
  Finset.card_image_le.trans_eq (Finset.card_range count)

/-- The partners of a round lie in the same distance on both sides. -/
theorem mem_partners {partner : Nat × Nat} :
    partner ∈ partners rank ranks ↔ ∃ round, 2 ^ round < ranks ∧
      partner = ((rank + 2 ^ round) % ranks, (rank + ranks - 2 ^ round) % ranks) := by
  rw [List.mem_iff_getElem?]
  constructor
  · rintro ⟨round, h⟩
    rw [getElem?_partners, Option.ite_none_right_eq_some, Option.some.injEq] at h
    exact ⟨round, h.1, h.2.symm⟩
  · rintro ⟨round, hlt, rfl⟩
    exact ⟨round, by rw [getElem?_partners, if_pos hlt]⟩

theorem partner_ne (hrank : rank < ranks) {partner : Nat × Nat}
    (h : partner ∈ partners rank ranks) :
    (partner.1 < ranks ∧ partner.1 ≠ rank) ∧ partner.2 < ranks ∧ partner.2 ≠ rank := by
  obtain ⟨round, hlt, rfl⟩ := mem_partners.1 h
  have hpos := Nat.two_pow_pos round
  have hahead := mod_cases (show rank + 2 ^ round < 2 * ranks by omega)
  have hbehind := mod_cases (show rank + ranks - 2 ^ round < 2 * ranks by omega)
  simp only
  omega

theorem nodup_targets (hrank : rank < ranks) :
    ((partners rank ranks).map Prod.fst).Nodup := by
  rw [partners, List.map_map]
  refine (nodup_distancesFrom 0 ranks).map_on fun distance hdistance other hother heq => ?_
  have hlt := (mem_distancesFrom hdistance).2
  have hlt' := (mem_distancesFrom hother).2
  have hahead := mod_cases (show rank + distance < 2 * ranks by omega)
  have hahead' := mod_cases (show rank + other < 2 * ranks by omega)
  simp only [Function.comp_apply] at heq
  omega

/-- Whom a rank receives from in a round, that rank sends to it in the round. -/
theorem partners_meet (hrank : rank < ranks) {target source : Nat}
    (h : (partners rank ranks)[round]? = some (target, source)) :
    ∃ other, (partners source ranks)[round]? = some (rank, other) := by
  rw [getElem?_partners, Option.ite_none_right_eq_some, Option.some.injEq, Prod.mk.injEq] at h
  obtain ⟨hlt, -, rfl⟩ := h
  have hsource := Nat.mod_lt (rank + ranks - 2 ^ round) (Nat.zero_lt_of_lt hrank)
  have hmeet := getElem?_partners ((rank + ranks - 2 ^ round) % ranks) ranks round
  rw [if_pos hlt, (ahead_iff_behind hsource hrank hlt).2 rfl] at hmeet
  exact ⟨_, hmeet⟩

/-- The search on words ends after as many rounds as double 1 up to the number of ranks, the power
of two that they reach fits into a word as well, and what is found are the partners. These are other
ranks, none of them sent to twice, and each rank receives from one that sends to it in that round.
After `i` rounds a rank has heard of exactly the `2 ^ i` ranks up to itself, around the circle, and
of all the ranks after the last round, not before. -/
theorem partners_spread (hranks : ranks ≤ 2 ^ 63) (hrank : rank < ranks) :
    IsLeast {turns | ranks ≤ 2 ^ turns} (doublings ranks) ∧
      2 ^ doublings ranks < UInt64.size ∧
      (∃ found,
        Search.Ends (.ofNat rank) (.ofNat ranks) (doublings ranks) {} found ∧
          found.map (Prod.map UInt64.toNat UInt64.toNat) = partners rank ranks) ∧
      (partners rank ranks).length = doublings ranks ∧
      (∀ partner ∈ partners rank ranks,
        (partner.1 < ranks ∧ partner.1 ≠ rank) ∧ partner.2 < ranks ∧ partner.2 ≠ rank) ∧
      ((partners rank ranks).map Prod.fst).Nodup ∧
      (∀ round target source : Nat, (partners rank ranks)[round]? = some (target, source) →
        ∃ other, (partners source ranks)[round]? = some (rank, other)) ∧
      (∀ rounds ≤ doublings ranks, heard ranks rounds rank =
        (Finset.range (min (2 ^ rounds) ranks)).image
          fun distance => (rank + ranks - distance) % ranks) ∧
      heard ranks (doublings ranks) rank = Finset.range ranks ∧
      ∀ rounds < doublings ranks, (heard ranks rounds rank).card < ranks := by
  have hleast := isLeast_doublings ranks
  have hlength : (partners rank ranks).length = doublings ranks := by
    rw [partners, List.length_map, length_distancesFrom]
  refine ⟨hleast, ?_, ?search, hlength, fun _ => partner_ne hrank, nodup_targets hrank,
    fun _ _ _ hmeet => partners_meet hrank hmeet, fun _ => heard_eq hrank, ?all, ?fewer⟩
  · have hfits : doublings ranks ≤ 63 := doublings_le_iff.2 hranks
    exact Nat.pow_lt_pow_right (by omega) (show doublings ranks < 64 by omega)
  case search =>
    obtain ⟨found, hends, hfound⟩ := @ends_from ranks rank 0 {} hranks hrank rfl
    rw [length_distancesFrom] at hends
    exact ⟨found, hends, hfound⟩
  case all =>
    rw [heard_eq hrank (Nat.le_refl _), Nat.min_eq_right hleast.1, upTo_all hrank]
  case fewer =>
    intro rounds hrounds
    have hlt := lt_doublings_iff.1 hrounds
    rw [heard_eq hrank hrounds.le, Nat.min_eq_left hlt.le]
    exact (card_upTo_le _ _ _).trans_lt hlt

/-- At the edge of the word the distance is doubled 63 times, to `2 ^ 63`, which ends the search. -/
theorem partners_spread_edge :
    2 ^ 63 ≤ 2 ^ 63 ∧ 5 < 2 ^ 63 ∧ IsLeast {turns | 2 ^ 63 ≤ 2 ^ turns} 63 ∧
      (partners 5 (2 ^ 63)).length = 63 ∧ heard (2 ^ 63) 2 5 = {5, 4, 3, 2} := by
  have hdoublings : doublings (2 ^ 63) = 63 := by decide
  obtain ⟨hleast, -, -, hlength, -, -, -, hheard, -, -⟩ :=
    @partners_spread (2 ^ 63) 5 (by decide) (by decide)
  rw [hdoublings] at hleast hlength hheard
  refine ⟨by decide, by decide, hleast, hlength, ?_⟩
  rw [hheard 2 (by decide)]
  decide

end Dissemination
end Collectives
