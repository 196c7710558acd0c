import Collectives.Alltoall
import Collectives.Dissemination
import Collectives.Proofs.PairPlans
import Collectives.Ring
import Mathlib.Algebra.Group.Nat.Defs

/-!
# Partners

Every collective but the tree is made of pairs, and in each the pairs of two ranks mirror each
other: they are shifts around a circle of ranks, or exchanges with the rank that differs in one bit.
-/

namespace Collectives

namespace RankPlan

/-- What the pair `k` of a chain waits for: the last operation of the pair before it. -/
def chainWaits (cost k : Nat) : List Wait := if k = 0 then [] else [.own (stride cost * k - 1)]

/-- What the pair `k` waits for when at most `window` pairs are in flight. -/
def windowWaits (window k : Nat) : List Wait := if k < window then [] else halves (k - window)

theorem flatten_chained_from (cost : Nat) (handle : Option Wait) (waits : Nat → List Wait)
    (pairs : List Pair) (k : Nat) (hfirst : waits k = handle.toList)
    (hlater : ∀ j, k < j → waits j = [.own (stride cost * j - 1)]) :
    (chained cost (stride cost * k) handle pairs).flatten = pairOps cost waits waits k pairs := by
  induction pairs generalizing k handle with
  | nil => rfl
  | cons pair pairs ih =>
    have hnext := hlater (k + 1) (by omega)
    have hrest : ∀ j, k + 1 < j → waits j = [.own (stride cost * j - 1)] :=
      fun j hj => hlater j (by omega)
    have hih := fun handle h => ih handle (k + 1) h hrest
    rw [hnext, Nat.mul_succ] at hih
    by_cases hcost : cost = 0
    · have hstride : stride cost = 2 := if_pos hcost
      rw [hstride] at hih ⊢
      have hflat := hih (some (.own (2 * k + 1))) rfl
      simp only [chained, if_pos hcost, List.flatten_cons, hflat, pairOps, pairBlock, Pair.round,
        hfirst, List.cons_append, List.nil_append]
    · have hstride : stride cost = 3 := if_neg hcost
      rw [hstride] at hih ⊢
      have hflat := hih (some (.own (3 * k + 2))) rfl
      simp only [chained, if_neg hcost, List.flatten_cons, hflat, pairOps, pairBlock, Pair.round,
        hfirst, List.cons_append, List.nil_append]

theorem flatten_chained (cost : Nat) (pairs : List Pair) :
    (chained cost 0 none pairs).flatten =
      pairOps cost (chainWaits cost) (chainWaits cost) 0 pairs :=
  flatten_chained_from cost none (chainWaits cost) pairs 0 rfl
    fun j hj => by rw [chainWaits, if_neg (by omega)]

theorem flatten_blocks (sendWaits recvWaits : Nat → List Wait) (pairs : List Pair) (first : Nat) :
    ((pairs.zipIdx first).map fun (pair, k) => pairBlock 0 sendWaits recvWaits k pair).flatten =
      pairOps 0 sendWaits recvWaits first pairs := by
  induction pairs generalizing first with
  | nil => rfl
  | cons pair pairs ih =>
    rw [List.zipIdx_cons, List.map_cons, List.flatten_cons, ih]
    rfl

theorem flatten_windowed (window : Nat) (pairs : List Pair) :
    (windowed window pairs).flatten =
      pairOps 0 (windowWaits window) (windowWaits window) 0 pairs :=
  flatten_blocks (windowWaits window) (windowWaits window) pairs 0

theorem flatten_parallel (pairs : List Pair) :
    (parallel pairs).flatten = pairOps 0 (fun _ => []) (fun _ => []) 0 pairs := by
  rw [← flatten_blocks, parallel]
  congr 1
  apply List.ext_getElem <;> simp [pairBlock, Pair.round]

theorem chainWaits_earlier (cost k : Nat) :
    ∀ wait ∈ chainWaits cost k, ∃ earlier < stride cost * k, wait = .own earlier := by
  intro wait hwait
  unfold chainWaits at hwait
  split at hwait
  case isTrue => cases hwait
  case isFalse hk =>
    have hpos : 0 < stride cost * k := Nat.mul_pos (stride_pos cost) (Nat.pos_of_ne_zero hk)
    exact ⟨_, by omega, List.mem_singleton.1 hwait⟩

theorem windowWaits_earlier {window : Nat} (h : window ≠ 0) (k : Nat) :
    ∀ wait ∈ windowWaits window k, ∃ earlier < stride 0 * k, wait = .own earlier := by
  intro wait hwait
  rw [show stride 0 = 2 from rfl]
  unfold windowWaits at hwait
  split at hwait
  case isTrue => cases hwait
  case isFalse hk =>
    simp only [halves, List.mem_cons, List.not_mem_nil, or_false] at hwait
    rcases hwait with rfl | rfl <;> exact ⟨_, by omega, rfl⟩

end RankPlan

namespace Pair

/-- The pairs of a rank that at each step sends some way ahead around the circle of `ranks` ranks
and receives from as far behind. -/
def shifts (sizeOf : Nat → Nat → Nat) (ranks : Nat) (steps : List (Nat × Tag)) (rank : Nat) :
    List Pair :=
  steps.map fun (distance, tag) =>
    { source := (rank + ranks - distance) % ranks
      recvSize := sizeOf ((rank + ranks - distance) % ranks) rank
      destination := (rank + distance) % ranks
      sendSize := sizeOf rank ((rank + distance) % ranks)
      tag }

end Pair

/-- A remainder where the divisor goes in at most once. -/
theorem mod_cases {x n : Nat} (h : x < 2 * n) :
    x < n ∧ x % n = x ∨ n ≤ x ∧ x % n + n = x := by
  by_cases hx : x < n
  · exact Or.inl ⟨hx, Nat.mod_eq_of_lt hx⟩
  · have hmod : x % n = x - n := by
      rw [Nat.mod_eq_sub_mod (by omega), Nat.mod_eq_of_lt (by omega)]
    omega

/-- One way around a circle undoes the other. -/
theorem ahead_iff_behind {ranks a b distance : Nat} (ha : a < ranks) (hb : b < ranks)
    (hdistance : distance < ranks) :
    (a + distance) % ranks = b ↔ (b + ranks - distance) % ranks = a := by
  have hback := mod_cases (show b + ranks - distance < 2 * ranks by omega)
  have hahead := mod_cases (show a + distance < 2 * ranks by omega)
  omega

namespace Pair

theorem mirrored_shifts {ranks : Nat} {steps : List (Nat × Tag)}
    (h : ∀ step ∈ steps, 0 < step.1 ∧ step.1 < ranks) (sizeOf : Nat → Nat → Nat) :
    Mirrored ranks (shifts sizeOf ranks steps) where
  ends := by
    intro rank hrank pair hpair
    obtain ⟨⟨distance, tag⟩, hstep, rfl⟩ := List.mem_map.1 hpair
    obtain ⟨hpos, hlt⟩ := h _ hstep
    have hback := mod_cases (show rank + ranks - distance < 2 * ranks by omega)
    have hahead := mod_cases (show rank + distance < 2 * ranks by omega)
    simp only
    omega
  agree := by
    intro a ha b hb tag
    simp only [shifts, List.map_map]
    apply List.map_congr_left
    rintro ⟨distance, label⟩ hstep
    obtain ⟨hpos, hlt⟩ := h _ hstep
    have hmeet := ahead_iff_behind ha hb hlt
    by_cases hab : (a + distance) % ranks = b
    · have hba := hmeet.1 hab
      simp [sentTo?, receivedFrom?, Action.sentTo?, Action.receivedFrom?, hab, hba]
    · have hba : ¬(b + ranks - distance) % ranks = a := fun he => hab (hmeet.2 he)
      simp [sentTo?, receivedFrom?, Action.sentTo?, Action.receivedFrom?, hab, hba]

/-- The pairs of a rank that at each step exchanges with the rank that differs in one bit. -/
def flips (steps : List (Nat × Nat × Tag)) (rank : Nat) : List Pair :=
  steps.map fun (bit, size, tag) =>
    { source := rank ^^^ 2 ^ bit, recvSize := size, destination := rank ^^^ 2 ^ bit,
      sendSize := size, tag }

theorem xor_two_pow_ne (rank bit : Nat) : rank ^^^ 2 ^ bit ≠ rank := by
  intro h
  have hbit := congrArg (·.testBit bit) h
  simp at hbit

theorem mirrored_flips {k : Nat} {steps : List (Nat × Nat × Tag)} (h : ∀ step ∈ steps, step.1 < k) :
    Mirrored (2 ^ k) (flips steps) where
  ends := by
    intro rank hrank pair hpair
    obtain ⟨⟨bit, size, tag⟩, hstep, rfl⟩ := List.mem_map.1 hpair
    have hlt : rank ^^^ 2 ^ bit < 2 ^ k :=
      Nat.xor_lt_two_pow hrank (Nat.pow_lt_pow_right (by omega) (h _ hstep))
    exact ⟨⟨hlt, xor_two_pow_ne rank bit⟩, hlt, xor_two_pow_ne rank bit⟩
  agree := by
    intro a ha b hb tag
    simp only [flips, List.map_map]
    apply List.map_congr_left
    rintro ⟨bit, size, label⟩ hstep
    have hmeet : a ^^^ 2 ^ bit = b ↔ b ^^^ 2 ^ bit = a := by
      constructor <;> rintro rfl <;> rw [Nat.xor_assoc, Nat.xor_self, Nat.xor_zero]
    by_cases hab : a ^^^ 2 ^ bit = b
    · have hba := hmeet.1 hab
      simp [sentTo?, receivedFrom?, Action.sentTo?, Action.receivedFrom?, hab, hba]
    · have hba : ¬b ^^^ 2 ^ bit = a := fun he => hab (hmeet.2 he)
      simp [sentTo?, receivedFrom?, Action.sentTo?, Action.receivedFrom?, hab, hba]

end Pair

/-- Some level makes the plans of every accepted size coherent. -/
def Pattern.Coherent (pattern : Pattern) : Prop :=
  ∀ size plans, pattern size = .ok plans → ∃ level, RankPlan.Coherent size plans level

namespace Dissemination

theorem mem_distancesFrom {step ranks distance : Nat} (h : distance ∈ distancesFrom step ranks) :
    2 ^ step ≤ distance ∧ distance < ranks := by
  fun_induction distancesFrom step ranks with
  | case1 step hlt ih =>
    rw [Nat.one_shiftLeft] at h hlt
    rcases List.mem_cons.1 h with rfl | hrest
    · exact ⟨Nat.le_refl _, hlt⟩
    · obtain ⟨hle, hranks⟩ := ih hrest
      rw [Nat.pow_succ] at hle
      exact ⟨by omega, hranks⟩
  | case2 => cases h

theorem nodup_distancesFrom (step ranks : Nat) : (distancesFrom step ranks).Nodup := by
  fun_induction distancesFrom step ranks with
  | case1 step hlt ih =>
    refine List.nodup_cons.2 ⟨fun hmem => ?_, ih⟩
    have hle := (mem_distancesFrom hmem).1
    have hpos := Nat.two_pow_pos step
    rw [Nat.one_shiftLeft, Nat.pow_succ] at hle
    omega
  | case2 => exact List.nodup_nil

/-- What the send number `k` of a rank waits for: the receive before it. -/
def sendWaits (k : Nat) : List Wait := if k = 0 then [] else [.own (2 * k - 1)]

def pairs (size : Nat) (tag : Tag) (ranks : Nat) : Nat → List Pair :=
  Pair.shifts (fun _ _ => size) ranks ((distancesFrom 0 ranks).map (·, tag))

theorem flatten_plan (size : Nat) (tag : Tag) (ranks rank : Nat) :
    (plan size tag ranks rank).flatten =
      pairOps 0 sendWaits (fun _ => []) 0 (pairs size tag ranks rank) := by
  rw [← RankPlan.flatten_blocks, plan, partners, pairs, Pair.shifts, List.map_map, List.zipIdx_map,
    List.zipIdx_map, List.map_map, List.map_map]
  rfl

theorem sendWaits_earlier (k : Nat) :
    ∀ wait ∈ sendWaits k, ∃ earlier < stride 0 * k, wait = .own earlier := by
  intro wait hwait
  rw [show stride 0 = 2 from rfl]
  unfold sendWaits at hwait
  split at hwait
  case isTrue => cases hwait
  case isFalse hk => exact ⟨_, by omega, List.mem_singleton.1 hwait⟩

theorem mirrored_pairs (size : Nat) (tag : Tag) (ranks : Nat) :
    Pair.Mirrored ranks (pairs size tag ranks) := by
  apply Pair.mirrored_shifts
  intro step hstep
  obtain ⟨distance, hdistance, rfl⟩ := List.mem_map.1 hstep
  obtain ⟨hle, hlt⟩ := mem_distancesFrom hdistance
  exact ⟨hle, hlt⟩

theorem coherent (size : Nat) (tag : Tag) : (exchange size tag).Coherent := by
  rintro ranks plans h
  cases h
  exact ⟨_, RankPlan.coherent_of_pairs (flatten_plan size tag ranks) sendWaits_earlier (by simp)
    (mirrored_pairs size tag ranks)⟩

end Dissemination

namespace Ring

/-- The steps of a ring: forward in the first phase, backward in the second. -/
def steps (tag secondTag : Tag) (ranks : Nat) : List (Nat × Tag) :=
  .replicate (ranks - 1) (1, tag) ++ .replicate (ranks - 1) (ranks - 1, secondTag)

def pairs (r : Reduction) (secondTag : Tag) (ranks : Nat) : Nat → List Pair :=
  Pair.shifts (fun _ _ => chunk r.size ranks) ranks (steps r.tag secondTag ranks)

theorem rounds_eq_pairs (r : Reduction) (secondTag : Tag) (ranks rank : Nat) :
    rounds (predecessor rank ranks) (successor rank ranks) r.size ranks r.tag ++
        rounds (successor rank ranks) (predecessor rank ranks) r.size ranks secondTag =
      pairs r secondTag ranks rank := by
  rcases Nat.eq_zero_or_pos ranks with rfl | hpos
  · simp [rounds, pairs, Pair.shifts, steps]
  · have hback : rank + ranks - (ranks - 1) = rank + 1 := by omega
    have hahead : rank + (ranks - 1) = rank + ranks - 1 := by omega
    simp [rounds, pairs, Pair.shifts, steps, hback, hahead, predecessor, successor]

theorem flatten_plan (r : Reduction) (secondTag : Tag) (ranks rank : Nat) :
    (plan r secondTag ranks rank).flatten =
      pairOps r.cost (RankPlan.chainWaits r.cost) (RankPlan.chainWaits r.cost) 0
        (pairs r secondTag ranks rank) := by
  rw [← RankPlan.flatten_chained, ← rounds_eq_pairs]
  rfl

theorem mirrored_pairs (r : Reduction) (secondTag : Tag) (ranks : Nat) :
    Pair.Mirrored ranks (pairs r secondTag ranks) := by
  apply Pair.mirrored_shifts
  intro step hstep
  simp only [steps, List.mem_append, List.mem_replicate] at hstep
  rcases hstep with ⟨hranks, rfl⟩ | ⟨hranks, rfl⟩ <;> simp only <;> omega

theorem coherent_plan (r : Reduction) (secondTag : Tag) (ranks : Nat) :
    RankPlan.Coherent ranks (plan r secondTag ranks) fun _ => pairLevel r.cost :=
  RankPlan.coherent_of_pairs (flatten_plan r secondTag ranks)
    (RankPlan.chainWaits_earlier r.cost) (RankPlan.chainWaits_earlier r.cost)
    (mirrored_pairs r secondTag ranks)

theorem exists_secondTag {r : Reduction} {ranks : Nat} {plans : Nat → RankPlan}
    (h : allreduce r ranks = .ok plans) :
    ∃ secondTag, r.secondTag = .ok secondTag ∧ plans = plan r secondTag ranks := by
  cases htag : r.secondTag with
  | error error => simp [allreduce, htag, bind, Except.bind] at h
  | ok secondTag =>
    simp only [allreduce, htag, bind, Except.bind, pure, Except.pure, Except.ok.injEq] at h
    exact ⟨secondTag, rfl, h.symm⟩

theorem coherent (r : Reduction) : (allreduce r).Coherent := by
  intro ranks plans h
  obtain ⟨secondTag, -, rfl⟩ := exists_secondTag h
  exact ⟨_, coherent_plan r secondTag ranks⟩

end Ring

namespace Butterfly

/-- The steps of a butterfly: the bits from the lowest up with halving sizes, then back. -/
def steps (size : Nat) (tag secondTag : Tag) (k : Nat) : List (Nat × Nat × Tag) :=
  ((List.range k).map fun bit => (bit, size >>> (bit + 1), tag)) ++
    ((List.range k).map fun bit => (bit, size >>> (bit + 1), secondTag)).reverse

theorem halvings_eq_flips (rank ranks size : Nat) (tag : Tag) :
    halvings rank ranks size tag =
      Pair.flips ((List.range ranks.log2).map fun bit => (bit, size >>> (bit + 1), tag)) rank := by
  rw [halvings, partners, Pair.flips, List.map_map, List.zipIdx_map, List.map_map]
  apply List.ext_getElem <;> simp [Nat.one_shiftLeft]

theorem flatten_plan (r : Reduction) (secondTag : Tag) (ranks rank : Nat) :
    (plan r secondTag ranks rank).flatten =
      pairOps r.cost (RankPlan.chainWaits r.cost) (RankPlan.chainWaits r.cost) 0
        (Pair.flips (steps r.size r.tag secondTag ranks.log2) rank) := by
  rw [← RankPlan.flatten_chained, plan, halvings_eq_flips, halvings_eq_flips, steps]
  simp only [Pair.flips, List.map_append, List.map_reverse]

theorem mirrored_flips (size : Nat) (tag secondTag : Tag) (k : Nat) :
    Pair.Mirrored (2 ^ k) (Pair.flips (steps size tag secondTag k)) := by
  apply Pair.mirrored_flips
  intro step hstep
  simp only [steps, List.mem_append, List.mem_reverse, List.mem_map, List.mem_range] at hstep
  rcases hstep with ⟨bit, hbit, rfl⟩ | ⟨bit, hbit, rfl⟩ <;> exact hbit

theorem coherent_plan (r : Reduction) (secondTag : Tag) (k : Nat) :
    RankPlan.Coherent (2 ^ k) (plan r secondTag (2 ^ k)) fun _ => pairLevel r.cost := by
  refine RankPlan.coherent_of_pairs (flatten_plan r secondTag (2 ^ k))
    (RankPlan.chainWaits_earlier r.cost) (RankPlan.chainWaits_earlier r.cost) ?_
  rw [Nat.log2_two_pow]
  exact mirrored_flips r.size r.tag secondTag k

theorem isPowerOfTwo_iff {n : Nat} : isPowerOfTwo n = true ↔ ∃ k, n = 2 ^ k := by
  rw [isPowerOfTwo, decide_eq_true_iff, Nat.one_shiftLeft]
  constructor
  · intro h
    exact ⟨n.log2, h.symm⟩
  · rintro ⟨k, rfl⟩
    rw [Nat.log2_two_pow]

theorem allreduce_eq (r : Reduction) (ranks : Nat) :
    allreduce r ranks =
      if isPowerOfTwo ranks then r.secondTag.map fun secondTag => plan r secondTag ranks
      else .error (.notPowerOfTwo ranks) := by
  cases hpow : isPowerOfTwo ranks <;> cases htag : r.secondTag <;>
    simp [allreduce, hpow, htag, bind, Except.bind, pure, Except.pure, throw, throwThe,
      MonadExceptOf.throw, Except.map]

theorem exists_secondTag {r : Reduction} {ranks : Nat} {plans : Nat → RankPlan}
    (h : allreduce r ranks = .ok plans) :
    ∃ k secondTag, ranks = 2 ^ k ∧ r.secondTag = .ok secondTag ∧
      plans = plan r secondTag ranks := by
  rw [allreduce_eq] at h
  split at h
  case isFalse => cases h
  case isTrue hpow =>
    obtain ⟨k, rfl⟩ := isPowerOfTwo_iff.1 hpow
    cases htag : r.secondTag with
    | error error => simp [htag, Except.map] at h
    | ok secondTag =>
      simp only [htag, Except.map, Except.ok.injEq] at h
      exact ⟨k, secondTag, rfl, rfl, h.symm⟩

theorem coherent (r : Reduction) : (allreduce r).Coherent := by
  intro ranks plans h
  obtain ⟨k, secondTag, rfl, -, rfl⟩ := exists_secondTag h
  exact ⟨_, coherent_plan r secondTag k⟩

end Butterfly

namespace Alltoall

@[simp] theorem length_pairs (sizeOf : Nat → Nat → Nat) (tag : Tag) (ranks rank : Nat) :
    (pairs sizeOf tag ranks rank).length = ranks - 1 := by
  simp [pairs, sources, destinations, offsets]

theorem pairs_eq_shifts (sizeOf : Nat → Nat → Nat) (tag : Tag) (ranks rank : Nat) :
    pairs sizeOf tag ranks rank = Pair.shifts sizeOf ranks ((offsets ranks).map (·, tag)) rank := by
  rw [pairs, sources, destinations, Pair.shifts, List.map_map]
  apply List.ext_getElem <;> simp

theorem mirrored_pairs (sizeOf : Nat → Nat → Nat) (tag : Tag) (ranks : Nat) :
    Pair.Mirrored ranks (pairs sizeOf tag ranks) := by
  rw [show pairs sizeOf tag ranks = _ from funext (pairs_eq_shifts sizeOf tag ranks)]
  apply Pair.mirrored_shifts
  intro step hstep
  simp only [offsets, List.map_map, List.mem_map, List.mem_range] at hstep
  obtain ⟨offset, hoffset, rfl⟩ := hstep
  simp only [Function.comp_apply]
  omega

theorem coherent_parallel (sizeOf : Nat → Nat → Nat) (tag : Tag) (ranks : Nat) :
    RankPlan.Coherent ranks (fun rank => .parallel (pairs sizeOf tag ranks rank))
      fun _ => pairLevel 0 :=
  RankPlan.coherent_of_pairs (fun _ => RankPlan.flatten_parallel _) (by simp) (by simp)
    (mirrored_pairs sizeOf tag ranks)

theorem plans_windowed {request : Request} {ranks : Nat} {plans : Nat → RankPlan}
    (h : windowed request ranks = .ok plans) :
    request.window ≠ 0 ∧ plans = fun rank =>
      .windowed request.window (pairs (fun _ _ => request.size) request.tag ranks rank) := by
  unfold windowed at h
  split at h
  case isTrue => cases h
  case isFalse hwindow => exact ⟨hwindow, (Except.ok.inj h).symm⟩

theorem coherent_windowed (request : Request) : (windowed request).Coherent := by
  intro ranks plans h
  obtain ⟨hwindow, rfl⟩ := plans_windowed h
  exact ⟨_, RankPlan.coherent_of_pairs (fun _ => RankPlan.flatten_windowed _ _)
    (RankPlan.windowWaits_earlier hwindow) (RankPlan.windowWaits_earlier hwindow)
    (mirrored_pairs _ request.tag ranks)⟩

theorem coherent_balanced (request : Request) : (balanced request).Coherent := by
  intro ranks plans h
  cases h
  exact ⟨_, coherent_parallel _ request.tag ranks⟩

theorem plans_unbalanced {request : Request} {sizes : List (List Nat)} {ranks : Nat}
    {plans : Nat → RankPlan} (h : unbalanced request sizes ranks = .ok plans) :
    plans = fun rank => .parallel (pairs (entry sizes) request.tag ranks rank) := by
  unfold unbalanced at h
  split at h
  case isTrue => cases h
  case isFalse =>
    split at h
    case h_1 => cases h
    case h_2 => exact (Except.ok.inj h).symm

theorem coherent_unbalanced (request : Request) (sizes : List (List Nat)) :
    (unbalanced request sizes).Coherent := by
  intro ranks plans h
  obtain rfl := plans_unbalanced h
  exact ⟨_, coherent_parallel _ request.tag ranks⟩

end Alltoall
end Collectives
