import Collectives.Proofs.ChainedRounds
import Mathlib.Data.Nat.ModEq
import Mathlib.Order.Interval.Finset.Nat

/-!
# The ring sums up

In the first phase a sum travels with every chunk: it starts at the rank of the chunk's own number
and gains the contribution of each rank that it comes to. After it, every sum is complete at one
rank, and the second phase carries it back around the ring. A rank never overwrites a sum that it
has still to send, since the way back passes through all ranks that wait for that send.
-/

namespace Collectives.Ring

variable {ranks : Nat}

theorem successor_mod (x ranks : Nat) : successor (x % ranks) ranks = (x + 1) % ranks := by
  rw [successor, Nat.mod_add_mod]

theorem predecessor_mod (hranks : 0 < ranks) (x : Nat) :
    predecessor ((x + 1) % ranks) ranks = x % ranks := by
  have hsum : (x + 1) % ranks + ranks - 1 = (x + 1) % ranks + (ranks - 1) := by omega
  rw [predecessor, hsum, Nat.mod_add_mod, show x + 1 + (ranks - 1) = x + ranks by omega,
    Nat.add_mod_right]

/-- The contributions of `count` ranks one after another around the ring, from `chunk` on. -/
def window (ranks chunk count : Nat) : Multiset Nat :=
  (Multiset.Ico chunk (chunk + count)).map (· % ranks)

theorem window_one (ranks chunk : Nat) : window ranks chunk 1 = {chunk % ranks} := by
  simp [window, Multiset.Ico]

theorem window_succ (ranks chunk count : Nat) :
    window ranks chunk (count + 1) = {(chunk + count) % ranks} + window ranks chunk count := by
  have hmore : Multiset.Ico chunk (chunk + (count + 1)) =
      (chunk + count) ::ₘ Multiset.Ico chunk (chunk + count) := by
    have hinsert := Nat.Ico_succ_right_eq_insert_Ico (Nat.le_add_right chunk count)
    exact (congrArg Finset.val hinsert).trans
      (Finset.insert_val_of_notMem Finset.right_notMem_Ico)
  rw [window, hmore, Multiset.map_cons, Multiset.singleton_add, window]

theorem window_all (ranks chunk : Nat) : window ranks chunk ranks = Multiset.range ranks :=
  Nat.multiset_Ico_map_mod chunk ranks

/-- What the messages of a ring allreduce carry. In the first phase the `k`-th send of a rank takes
its chunk `k` ranks back along, to be added; in the second the one `k + 1` ranks ahead, to be put in
place. -/
def meaning (tag secondTag : Tag) (ranks : Nat) : Meaning :=
  .twoPhases tag secondTag (fun rank k => {(rank + ranks - k) % ranks})
    fun rank k => {(rank + 1 + k) % ranks}

def ringRounds (r : Reduction) (secondTag : Tag) (ranks : Nat) : Rounds :=
  chainedRounds ranks r.cost (twoPhases (ranks - 1) r.tag secondTag) (pairs r secondTag ranks)

theorem count_ringRounds (r : Reduction) (secondTag : Tag) (ranks : Nat) :
    (ringRounds r secondTag ranks).count = 2 * (ranks - 1) :=
  length_twoPhases _ _ _

theorem chainedPlans (r : Reduction) (secondTag : Tag) (ranks : Nat) :
    ChainedPlans ranks r.cost (twoPhases (ranks - 1) r.tag secondTag) (pairs r secondTag ranks)
      (plan r secondTag ranks) where
  flatten := flatten_plan r secondTag ranks
  mirrored := mirrored_pairs r secondTag ranks
  tags_eq := by
    intro rank
    simp [pairs, Pair.shifts, steps, twoPhases]

theorem lockstep (r : Reduction) (secondTag : Tag) (ranks : Nat) :
    (Schedule.onWorld ranks (plan r secondTag ranks)).Lockstep (ringRounds r secondTag ranks) :=
  (chainedPlans r secondTag ranks).lockstep

section Values

variable {r : Reduction} {secondTag : Tag} {round rank chunk distance : Nat}

theorem source_eq (hround : round < 2 * (ranks - 1)) (rank : Nat) :
    (ringRounds r secondTag ranks).source rank round =
      if round < ranks - 1 then predecessor rank ranks else successor rank ranks := by
  have hstep : (steps r.tag secondTag ranks)[round]? =
      if round < ranks - 1 then some (1, r.tag) else some (ranks - 1, secondTag) := by
    rw [steps]
    split
    case isTrue hlt =>
      rw [List.getElem?_append_left (by simpa using hlt)]
      simp [hlt]
    case isFalse hge =>
      rw [List.getElem?_append_right (by simpa using hge)]
      have hrest : round - (ranks - 1) < ranks - 1 := by omega
      simp [hrest]
  rw [ringRounds, chainedRounds]
  simp only [pairs, Pair.shifts, List.getElem?_map, hstep]
  split
  case isTrue => rfl
  case isFalse =>
    have hback : rank + ranks - (ranks - 1) = rank + 1 := by omega
    simp only [Option.map_some, Option.elim_some, hback, successor]

theorem carried_source (hne : r.tag ≠ secondTag) (hround : round < 2 * (ranks - 1)) (rank : Nat) :
    (ringRounds r secondTag ranks).carried (meaning r.tag secondTag ranks)
        ((ringRounds r secondTag ranks).source rank round) round =
      if round < ranks - 1 then {(predecessor rank ranks + ranks - round) % ranks}
      else {(successor rank ranks + 1 + (round - (ranks - 1))) % ranks} := by
  rw [source_eq hround, ringRounds, meaning, carried_twoPhases hne hround]
  split
  case isTrue => rfl
  case isFalse => rfl

/-- In the first phase, the chunk that comes to a rank in a round is the one that lies one rank
further back than the rounds before. -/
theorem mem_carried_first (hne : r.tag ≠ secondTag) (hround : round < ranks - 1)
    (hchunk : chunk < ranks) (hdistance : distance < ranks) :
    chunk ∈ (ringRounds r secondTag ranks).carried (meaning r.tag secondTag ranks)
        ((ringRounds r secondTag ranks).source ((chunk + distance) % ranks) round) round ↔
      distance = round + 1 := by
  rw [carried_source hne (by omega), if_pos hround, Finset.mem_singleton, predecessor]
  have hrank := mod_cases (show chunk + distance < 2 * ranks by omega)
  have hpred := mod_cases (show (chunk + distance) % ranks + ranks - 1 < 2 * ranks by omega)
  have hsent := mod_cases
    (show ((chunk + distance) % ranks + ranks - 1) % ranks + ranks - round < 2 * ranks by omega)
  omega

/-- In the second phase, it is the one that lies one rank further ahead. -/
theorem mem_carried_second (hne : r.tag ≠ secondTag) (hround : round < ranks - 1)
    (hrank : rank < ranks) (hdistance : distance < ranks) :
    (rank + 1 + distance) % ranks ∈
        (ringRounds r secondTag ranks).carried (meaning r.tag secondTag ranks)
          ((ringRounds r secondTag ranks).source rank (ranks - 1 + round)) (ranks - 1 + round) ↔
      distance = round + 1 := by
  rw [carried_source hne (by omega), if_neg (by omega), Finset.mem_singleton, successor,
    Nat.add_sub_cancel_left, Nat.add_assoc ((rank + 1) % ranks), Nat.mod_add_mod]
  constructor
  · intro hmeet
    have hcancel : distance % ranks = (1 + round) % ranks := Nat.ModEq.add_left_cancel' _ hmeet
    rw [Nat.mod_eq_of_lt hdistance, Nat.mod_eq_of_lt (by omega)] at hcancel
    omega
  · rintro rfl
    rw [Nat.add_comm round 1]

/-- After some rounds of the first phase, a rank that the sum of a chunk has come to holds the
contributions of all ranks on the way, and any other rank its own. -/
theorem value_first (hne : r.tag ≠ secondTag) (hround : round ≤ ranks - 1) (hchunk : chunk < ranks)
    (hdistance : distance < ranks) :
    (ringRounds r secondTag ranks).value (meaning r.tag secondTag ranks) round
        ((chunk + distance) % ranks) chunk =
      if distance ≤ round then window ranks chunk (distance + 1)
      else {(chunk + distance) % ranks} := by
  induction round generalizing distance with
  | zero =>
    rw [Rounds.value]
    split
    case isTrue hzero =>
      obtain rfl := Nat.le_zero.1 hzero
      exact (window_one ranks chunk).symm
    case isFalse => rfl
  | succ round ih =>
    have hstep := mem_carried_first hne (Nat.lt_of_succ_le hround) hchunk hdistance
    -- Only one rank receives the chunk, from the last one that the sum has come to.
    by_cases hnew : distance = round + 1
    · subst hnew
      have hsource : (ringRounds r secondTag ranks).source ((chunk + (round + 1)) % ranks) round =
          (chunk + round) % ranks := by
        rw [source_eq (by omega), if_pos (by omega), ← Nat.add_assoc, predecessor_mod (by omega)]
      have hadds : (meaning r.tag secondTag ranks).adds ((ringRounds r secondTag ranks).tag round) =
          true := adds_first (Nat.lt_of_succ_le hround)
      rw [Rounds.value_of_mem (hstep.2 rfl), if_pos hadds, hsource, ih (by omega) hdistance,
        if_neg (by omega), ih (by omega) (by omega), if_pos (Nat.le_refl round),
        if_pos (Nat.le_refl _), window_succ ranks chunk (round + 1)]
    · rw [Rounds.value_of_notMem (fun hmem => hnew (hstep.1 hmem)), ih (by omega) hdistance]
      have hsame : distance ≤ round ↔ distance ≤ round + 1 := by omega
      simp only [hsame]

/-- After some rounds of the second phase, a rank holds the complete sums of the chunks that far
ahead of it. -/
theorem value_second (hne : r.tag ≠ secondTag) (hround : round ≤ ranks - 1) (hrank : rank < ranks)
    (hdistance : distance ≤ round) :
    (ringRounds r secondTag ranks).value (meaning r.tag secondTag ranks) (ranks - 1 + round) rank
        ((rank + 1 + distance) % ranks) = Multiset.range ranks := by
  induction round generalizing rank distance with
  | zero =>
    obtain rfl := Nat.le_zero.1 hdistance
    have hpos : 0 < ranks := by omega
    have hback : ((rank + 1) % ranks + (ranks - 1)) % ranks = rank := by
      rw [Nat.mod_add_mod, show rank + 1 + (ranks - 1) = rank + ranks by omega, Nat.add_mod_right,
        Nat.mod_eq_of_lt hrank]
    have hfirst := value_first hne (Nat.le_refl (ranks - 1)) (Nat.mod_lt (rank + 1) hpos)
      (show ranks - 1 < ranks by omega)
    rw [hback, if_pos (Nat.le_refl _), Nat.sub_add_cancel hpos, window_all] at hfirst
    exact hfirst
  | succ round ih =>
    have hstep := mem_carried_second hne (Nat.lt_of_succ_le hround) hrank
      (show distance < ranks by omega)
    rw [← Nat.add_assoc]
    -- Only the sum furthest ahead is new, and the next rank has it already.
    by_cases hnew : distance = round + 1
    · subst hnew
      have hsource : (ringRounds r secondTag ranks).source rank (ranks - 1 + round) =
          successor rank ranks := by
        rw [source_eq (by omega), if_neg (by omega)]
      have hadds : ¬(meaning r.tag secondTag ranks).adds
          ((ringRounds r secondTag ranks).tag (ranks - 1 + round)) = true :=
        adds_second hne (by omega) (by omega)
      have hahead : (rank + 1 + (round + 1)) % ranks =
          (successor rank ranks + 1 + round) % ranks := by
        rw [successor, Nat.add_assoc ((rank + 1) % ranks), Nat.mod_add_mod, Nat.add_comm 1 round]
      have hnext : successor rank ranks < ranks := Nat.mod_lt _ (by omega)
      rw [Rounds.value_of_mem (hstep.2 rfl), if_neg hadds, hsource, hahead,
        ih (by omega) hnext (Nat.le_refl round)]
    · rw [Rounds.value_of_notMem (fun hmem => hnew (hstep.1 hmem)),
        ih (by omega) hrank (by omega)]

theorem value_all (hne : r.tag ≠ secondTag) (hrank : rank < ranks) (hchunk : chunk < ranks) :
    (ringRounds r secondTag ranks).value (meaning r.tag secondTag ranks) (2 * (ranks - 1)) rank
        chunk = Multiset.range ranks := by
  have hpos : 0 < ranks := by omega
  have hdistance : (chunk + ranks - (rank + 1)) % ranks < ranks := Nat.mod_lt _ hpos
  have hchunk' : (rank + 1 + (chunk + ranks - (rank + 1)) % ranks) % ranks = chunk := by
    rw [Nat.add_mod_mod, show rank + 1 + (chunk + ranks - (rank + 1)) = chunk + ranks by omega,
      Nat.add_mod_right, Nat.mod_eq_of_lt hchunk]
  have hlast := value_second hne (Nat.le_refl (ranks - 1)) hrank
    (show (chunk + ranks - (rank + 1)) % ranks ≤ ranks - 1 by omega)
  rwa [hchunk', ← Nat.two_mul] at hlast

end Values

section Races

variable {r : Reduction} {secondTag : Tag}

/-- A chunk that a rank sends comes back to it only by a way that starts with that send. -/
theorem last_eq (hne : r.tag ≠ secondTag) {rank round later chunk : Nat} (hrank : rank < ranks)
    (hle : round ≤ later) (hlater : later < 2 * (ranks - 1))
    (hsent : chunk ∈ (ringRounds r secondTag ranks).carried (meaning r.tag secondTag ranks) rank
      round)
    (hback : chunk ∈ (ringRounds r secondTag ranks).carried (meaning r.tag secondTag ranks)
      ((ringRounds r secondTag ranks).source rank later) later) :
    round < ranks - 1 ∧ later + round + 1 = 2 * (ranks - 1) := by
  have hround : round < 2 * (ranks - 1) := by omega
  rw [carried_source hne hlater] at hback
  rw [ringRounds, meaning, carried_twoPhases hne hround] at hsent
  -- Within one phase every rank meets a chunk once only, and the second does not come first.
  by_cases hfirst : round < ranks - 1 <;> by_cases hlast : later < ranks - 1
  · rw [if_pos hfirst, Finset.mem_singleton] at hsent
    rw [if_pos hlast, Finset.mem_singleton, predecessor] at hback
    have hchunk := mod_cases (show rank + ranks - round < 2 * ranks by omega)
    have hpred := mod_cases (show rank + ranks - 1 < 2 * ranks by omega)
    have hcarried := mod_cases
      (show (rank + ranks - 1) % ranks + ranks - later < 2 * ranks by omega)
    omega
  · rw [if_pos hfirst, Finset.mem_singleton] at hsent
    rw [if_neg hlast, Finset.mem_singleton, successor] at hback
    have hchunk := mod_cases (show rank + ranks - round < 2 * ranks by omega)
    have hsucc := mod_cases (show rank + 1 < 2 * ranks by omega)
    have hcarried := mod_cases
      (show (rank + 1) % ranks + 1 + (later - (ranks - 1)) < 2 * ranks by omega)
    omega
  · omega
  · rw [if_neg hfirst, Finset.mem_singleton] at hsent
    rw [if_neg hlast, Finset.mem_singleton, successor] at hback
    have hchunk := mod_cases (show rank + 1 + (round - (ranks - 1)) < 2 * ranks by omega)
    have hsucc := mod_cases (show rank + 1 < 2 * ranks by omega)
    have hcarried := mod_cases
      (show (rank + 1) % ranks + 1 + (later - (ranks - 1)) < 2 * ranks by omega)
    omega

/-- Where the way that starts with the send of a rank in a round has come to later: ahead around the
ring in the first phase, and back in the second. -/
def way (ranks rank round later : Nat) : Nat :=
  if later < ranks - 1 then (rank + (later - round) + 1) % ranks
  else (rank + (2 * (ranks - 1) - 1 - round - later)) % ranks

theorem way_lt (hranks : 0 < ranks) (rank round later : Nat) :
    way ranks rank round later < ranks := by
  unfold way
  split <;> exact Nat.mod_lt _ hranks

theorem source_way (hranks : 0 < ranks) {rank round later : Nat} (hle : round ≤ later)
    (hlater : later + round + 1 < 2 * (ranks - 1)) :
    (ringRounds r secondTag ranks).source (way ranks rank round (later + 1)) (later + 1) =
      way ranks rank round later := by
  rw [source_eq (by omega), way, way]
  by_cases hfirst : later + 1 < ranks - 1
  · rw [if_pos hfirst, if_pos hfirst, if_pos (by omega), predecessor_mod hranks]
    congr 1
    omega
  · rw [if_neg hfirst, if_neg hfirst, successor_mod]
    split
    case isTrue =>
      congr 1
      omega
    case isFalse =>
      congr 1
      omega

theorem source_way_start (r : Reduction) (secondTag : Tag) {rank round : Nat}
    (hrank : rank < ranks) (hround : round < ranks - 1) :
    (ringRounds r secondTag ranks).source (way ranks rank round round) round = rank := by
  rw [source_eq (by omega), way, if_pos hround, if_pos hround, Nat.sub_self, Nat.add_zero,
    predecessor_mod (by omega), Nat.mod_eq_of_lt hrank]

theorem raceFree (hranks : 0 < ranks) (hne : r.tag ≠ secondTag) :
    (Schedule.onWorld ranks (plan r secondTag ranks)).RaceFree (ringRounds r secondTag ranks)
      (meaning r.tag secondTag ranks) := by
  intro rank hrank round later hle hlater chunk hsent hback
  change rank < ranks at hrank
  have hcount := hlater
  rw [count_ringRounds] at hcount
  obtain ⟨hround, hlast⟩ := last_eq hne hrank hle hcount hsent hback
  -- The way of the send ahead around the ring and back ends where it started.
  have hway := (lockstep r secondTag ranks).transGen_way (way ranks rank round) hle hlater
    (fun i _ _ => way_lt hranks rank round i)
    (fun i hlow hhigh => source_way hranks hlow (by omega))
  have hend : way ranks rank round later = rank := by
    rw [way, if_neg (by omega), show 2 * (ranks - 1) - 1 - round - later = 0 by omega,
      Nat.add_zero, Nat.mod_eq_of_lt hrank]
  have hstart := source_way_start r secondTag hrank hround
  rwa [hstart, hend] at hway

end Races

/-- Whatever the size of the data and the cost of a computation: a ring allreduce whose second tag
exists is built, it can run, and every order that respects what its operations wait for leaves at
every rank, in every chunk, the contribution of each rank exactly once. -/
theorem ring_allreduce_sums (r : Reduction) (htag : r.tag < Tag.last) (ranks : Nat)
    (hranks : 0 < ranks) :
    ∃ s, (allreduce r).schedule ranks = .ok s ∧ (∃ order, s.Order order) ∧
      ∀ order, s.Order order → ∀ rank < ranks, ∀ chunk < ranks,
        (s.execute (meaning r.tag (r.tag + 1) ranks) order).held rank chunk =
          Multiset.range ranks := by
  have hsecond := r.secondTag_eq htag
  have hne := r.tag_ne_secondTag
  have hplans : allreduce r ranks = .ok (plan r (r.tag + 1) ranks) := by
    simp [allreduce, hsecond, bind, Except.bind, pure, Except.pure]
  refine ⟨_, Pattern.schedule_eq hranks hplans (coherent_plan r (r.tag + 1) ranks),
    (chainedPlans r (r.tag + 1) ranks).leveled.exists_order, ?_⟩
  intro order horder rank hrank chunk hchunk
  have hl := lockstep r (r.tag + 1) ranks
  rw [hl.execute_eq (raceFree hranks hne) horder hrank chunk, count_ringRounds]
  exact value_all hne hrank hchunk

theorem ring_allreduce_sums_three :
    (0 : Tag) < Tag.last ∧ 0 < 3 ∧
      ∃ s, (allreduce ⟨10, 0, 5⟩).schedule 3 = .ok s ∧ (∃ order, s.Order order) ∧
        ∀ order, s.Order order → ∀ rank < 3, ∀ chunk < 3,
          (s.execute (meaning 0 (0 + 1) 3) order).held rank chunk = Multiset.range 3 :=
  ⟨by decide, by decide, ring_allreduce_sums ⟨10, 0, 5⟩ (by decide) 3 (by decide)⟩

end Collectives.Ring
