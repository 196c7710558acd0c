import Collectives.Proofs.Labels
import Collectives.Proofs.RingSums

/-!
# Labels of a ring

In a phase of a ring all messages of a rank go to one neighbour under one tag. Its receives come one
after another. Its sends do not: what a send causes lies on the ranks ahead of it, one round later
with every rank, and a phase is over before it has come around the ring.
-/

namespace Collectives

/-- The rounds that a rank is through with once it has run the operation at a position: those whose
receive it has made. -/
def passed (cost index : Nat) : Nat := (index + stride cost - 1) / stride cost

theorem passed_send (cost k : Nat) : passed cost (stride cost * k) = k := by
  by_cases hcost : cost = 0 <;> simp only [passed, stride, hcost, if_true, if_false] <;> omega

theorem passed_recv (cost k : Nat) : passed cost (stride cost * k + 1) = k + 1 := by
  by_cases hcost : cost = 0 <;> simp only [passed, stride, hcost, if_true, if_false] <;> omega

namespace ChainedPlans

variable {ranks cost : Nat} {tags : List Tag} {pairsOf : Nat → List Pair} {plans : Nat → RankPlan}
  {x y : OpId}

/-- An operation comes directly after one of its own rank that is no send, or it is a receive and
comes after its send. -/
theorem causes_cases (h : ChainedPlans ranks cost tags pairsOf plans)
    (hxy : (Schedule.onWorld ranks plans).Causes x y) :
    (x.rank = y.rank ∧ x.index % stride cost ≠ 0 ∧ x.index < y.index ∧
        passed cost x.index ≤ passed cost y.index) ∨
      ∃ round pair, (pairsOf y.rank)[round]? = some pair ∧ y.rank < ranks ∧
        x = ⟨pair.source, stride cost * round⟩ ∧ y.index = stride cost * round + 1 := by
  obtain ⟨op, hop⟩ := Option.isSome_iff_exists.1 hxy.isSome_later
  obtain ⟨rank, index⟩ := y
  -- What a send or a receive waits for is the end of the round before.
  have hback : ∀ round i, i < 2 → .own x.index ∈ RankPlan.chainWaits cost round →
      x.index % stride cost ≠ 0 ∧ x.index < stride cost * round + i ∧
        passed cost x.index ≤ passed cost (stride cost * round + i) := by
    intro round i hi hwait
    unfold RankPlan.chainWaits at hwait
    split at hwait
    case isTrue => cases hwait
    case isFalse hround =>
      rw [Wait.own.inj (List.mem_singleton.1 hwait)]
      by_cases hcost : cost = 0 <;>
        simp only [passed, stride, hcost, if_true, if_false] <;> omega
  obtain ⟨hrank, ⟨round, pair, hpair, rfl, -⟩ | ⟨round, pair, hpair, rfl, -⟩ |
    ⟨round, pair, hpair, hcost, rfl, -⟩⟩ := h.paired.cases_op hop
  · obtain ⟨earlier, hwait, rfl⟩ := (h.paired.causes_send_iff hrank hpair).1 hxy
    exact Or.inl ⟨rfl, hback round 0 (by omega) hwait⟩
  · rcases (h.paired.causes_recv_iff hrank hpair).1 hxy with ⟨earlier, hwait, rfl⟩ | rfl
    · exact Or.inl ⟨rfl, hback round 1 (by omega) hwait⟩
    · exact Or.inr ⟨round, pair, hpair, hrank, rfl, rfl⟩
  · obtain rfl := (h.paired.causes_calc_iff hrank hpair hcost).1 hxy
    refine Or.inl ⟨rfl, ?_⟩
    simp only [passed, stride, if_neg hcost]
    omega

variable {behind : Nat → Nat} {low high : Nat}

/-- Along rounds in which every rank receives from the rank that `behind` names, an effect lies as
many ranks ahead as it took messages, and each of them took a round. -/
theorem exists_hops (h : ChainedPlans ranks cost tags pairsOf plans)
    (hbehind : ∀ rank < ranks, ∀ round pair, (pairsOf rank)[round]? = some pair → low ≤ round →
      round < high → pair.source = behind rank)
    (hxy : Relation.ReflTransGen (Schedule.onWorld ranks plans).Causes x y)
    (hlow : stride cost * low ≤ x.index) (hhigh : y.index < stride cost * high) :
    x.index ≤ y.index ∧ ∃ hops, x.rank = behind^[hops] y.rank ∧
      hops + passed cost x.index ≤ passed cost y.index := by
  induction hxy with
  | refl => exact ⟨Nat.le_refl _, 0, rfl, by omega⟩
  | @tail z y hxz hzy ih =>
    rcases h.causes_cases hzy with ⟨hrank, -, hlt, hpassed⟩ | ⟨round, pair, hpair, hy, rfl, hindex⟩
    · obtain ⟨hle, hops, hway, hrounds⟩ := ih (by omega)
      exact ⟨by omega, hops, by rw [hway, hrank], by omega⟩
    · rw [hindex] at hhigh ⊢
      obtain ⟨hle, hops, hway, hrounds⟩ := ih (Nat.lt_of_succ_lt hhigh)
      have hsource := hbehind _ hy round pair hpair
        (Nat.le_of_mul_le_mul_left (Nat.le_trans hlow hle) (stride_pos cost))
        (Nat.lt_of_mul_lt_mul_left (Nat.lt_of_succ_lt hhigh))
      refine ⟨Nat.le_succ_of_le hle, hops + 1, ?_, ?_⟩
      · rw [hway, Function.iterate_succ_apply, ← hsource]
      · rw [passed_send] at hrounds
        rw [passed_recv]
        omega

/-- Between two sends of such rounds, one that causes the other lies behind it by at least one rank,
and by no more ranks than rounds. -/
theorem exists_hops_sends (h : ChainedPlans ranks cost tags pairsOf plans)
    (hbehind : ∀ rank < ranks, ∀ round pair, (pairsOf rank)[round]? = some pair → low ≤ round →
      round < high → pair.source = behind rank)
    {rank rank' round round' : Nat} (hlow : low ≤ round) (hhigh : round' < high)
    (hxy : Relation.TransGen (Schedule.onWorld ranks plans).Causes ⟨rank, stride cost * round⟩
      ⟨rank', stride cost * round'⟩) :
    ∃ hops, hops ≠ 0 ∧ rank = behind^[hops] rank' ∧ hops + round ≤ round' := by
  obtain ⟨z, hxz, hzy⟩ := Relation.TransGen.head'_iff.1 hxy
  rcases h.causes_cases hxz with ⟨-, hnot, -⟩ | ⟨k, pair, hpair, hz, hx, hindex⟩
  · exact absurd (Nat.mul_mod_right _ _) hnot
  · obtain ⟨hrank, hround⟩ := OpId.mk.inj hx
    obtain rfl := Nat.eq_of_mul_eq_mul_left (stride_pos cost) hround
    have hmul : stride cost * low ≤ stride cost * round := Nat.mul_le_mul_left _ hlow
    obtain ⟨hle, hops, hway, hrounds⟩ := h.exists_hops hbehind hzy (by omega)
      (Nat.mul_lt_mul_of_pos_left hhigh (stride_pos cost))
    rw [hindex] at hle hrounds
    have hsource := hbehind _ hz round pair hpair hlow (by
      have := Nat.lt_of_mul_lt_mul_left (Nat.lt_of_succ_le hle)
      omega)
    refine ⟨hops + 1, Nat.succ_ne_zero hops, ?_, ?_⟩
    · rw [hrank, hsource, hway, ← Function.iterate_succ_apply' behind]
    · rw [passed_recv, passed_send] at hrounds
      omega

end ChainedPlans

namespace Ring

variable {ranks : Nat}

theorem iterate_successor {rank : Nat} (hrank : rank < ranks) (hops : Nat) :
    (successor · ranks)^[hops] rank = (rank + hops) % ranks := by
  induction hops with
  | zero => exact (Nat.mod_eq_of_lt hrank).symm
  | succ hops ih => rw [Function.iterate_succ_apply', ih, successor_mod, Nat.add_assoc]

theorem iterate_predecessor {rank : Nat} (hrank : rank < ranks) (hops : Nat) :
    ((predecessor · ranks)^[hops] rank + hops) % ranks = rank := by
  induction hops with
  | zero => exact Nat.mod_eq_of_lt hrank
  | succ hops ih =>
    rw [Function.iterate_succ_apply', predecessor, Nat.mod_add_mod]
    generalize (predecessor · ranks)^[hops] rank = start at ih ⊢
    rw [show start + ranks - 1 + (hops + 1) = start + hops + ranks by omega, Nat.add_mod_right, ih]

section Labels

variable {r : Reduction} {secondTag : Tag} {x y : OpId} {sends : Bool} {peer : Nat} {tag : Tag}

/-- A labelled operation of a ring is a half of a pair, and its tag is that of the phase. -/
theorem exists_round_of_label?
    (hx : (Schedule.onWorld ranks (plan r secondTag ranks)).label? x = some (sends, peer, tag)) :
    x.rank < ranks ∧ ∃ round < 2 * (ranks - 1),
      tag = (if round < ranks - 1 then r.tag else secondTag) ∧
      x = ⟨x.rank, stride r.cost * round + if sends then 0 else 1⟩ := by
  have hchained := chainedPlans r secondTag ranks
  have htag : ∀ round pair, (pairs r secondTag ranks x.rank)[round]? = some pair →
      round < 2 * (ranks - 1) ∧ pair.tag = if round < ranks - 1 then r.tag else secondTag := by
    intro round pair hpair
    have hround := hchained.lt_length hpair
    obtain ⟨pair', hpair', htag, -⟩ := hchained.exists_pair x.rank hround
    obtain rfl := Option.some.inj (hpair.symm.trans hpair')
    rw [length_twoPhases] at hround
    exact ⟨hround, htag.trans (getD_twoPhases hround)⟩
  obtain ⟨op, hop, hlabel⟩ := Option.bind_eq_some_iff.1 hx
  obtain ⟨hrank, ⟨round, pair, hpair, hindex, haction⟩ | ⟨round, pair, hpair, hindex, haction⟩ |
    ⟨round, pair, hpair, hcost, hindex, haction⟩⟩ := hchained.paired.cases_op hop
  · rw [haction] at hlabel
    cases hlabel
    obtain ⟨hround, htag⟩ := htag round pair hpair
    exact ⟨hrank, round, hround, htag, congrArg (OpId.mk x.rank) hindex⟩
  · rw [haction] at hlabel
    cases hlabel
    obtain ⟨hround, htag⟩ := htag round pair hpair
    exact ⟨hrank, round, hround, htag, congrArg (OpId.mk x.rank) hindex⟩
  · rw [haction] at hlabel
    cases hlabel

/-- The tag of a message tells the phase of its round. -/
theorem same_phase (htag : r.tag ≠ secondTag) {i j count : Nat}
    (h : (if i < count then r.tag else secondTag) = if j < count then r.tag else secondTag) :
    i < count ↔ j < count := by
  by_cases hi : i < count <;> by_cases hj : j < count
  · exact iff_of_true hi hj
  · rw [if_pos hi, if_neg hj] at h
    exact absurd h htag
  · rw [if_neg hi, if_pos hj] at h
    exact absurd h.symm htag
  · exact iff_of_false hi hj

/-- All receives of a rank come one after another. -/
theorem ordered_recvs {tag' : Tag} {peer' : Nat} (hrank : x.rank = y.rank) (hne : x ≠ y)
    (hx : (Schedule.onWorld ranks (plan r secondTag ranks)).label? x = some (false, peer, tag))
    (hy : (Schedule.onWorld ranks (plan r secondTag ranks)).label? y = some (false, peer', tag')) :
    (Schedule.onWorld ranks (plan r secondTag ranks)).Ordered x y := by
  have hlock := lockstep r secondTag ranks
  obtain ⟨hr, i, hi, -, hxi⟩ := exists_round_of_label? hx
  obtain ⟨-, j, hj, -, hyj⟩ := exists_round_of_label? hy
  rw [← hrank] at hyj
  rw [← count_ringRounds r secondTag] at hi hj
  rcases Nat.lt_trichotomy i j with hlt | rfl | hlt
  · rw [hxi, hyj]
    exact Or.inl (hlock.transGen_chained hr hlt hj).2
  · exact absurd (hxi.trans hyj.symm) hne
  · rw [hxi, hyj]
    exact Or.inr (hlock.transGen_chained hr hlt hi).2

/-- No send of a phase causes another of its rank: a phase has fewer rounds than the ring ranks. -/
theorem not_transGen_sends (htag : r.tag ≠ secondTag) (hrank : x.rank = y.rank)
    (hx : (Schedule.onWorld ranks (plan r secondTag ranks)).label? x = some (true, peer, tag))
    (hy : (Schedule.onWorld ranks (plan r secondTag ranks)).label? y = some (true, peer, tag)) :
    ¬Relation.TransGen (Schedule.onWorld ranks (plan r secondTag ranks)).Causes x y := by
  intro hxy
  have hchained := chainedPlans r secondTag ranks
  have hsource : ∀ rank round pair, (pairs r secondTag ranks rank)[round]? = some pair →
      pair.source = if round < ranks - 1 then predecessor rank ranks else successor rank ranks := by
    intro rank round pair hpair
    have hround := hchained.lt_length hpair
    rw [length_twoPhases] at hround
    rw [← @source_eq ranks r secondTag round hround rank]
    simp [ringRounds, chainedRounds, hpair]
  obtain ⟨hr, i, hi, hitag, hxi⟩ := exists_round_of_label? hx
  obtain ⟨-, j, hj, hjtag, hyj⟩ := exists_round_of_label? hy
  rw [← hrank] at hyj
  rw [hxi, hyj] at hxy
  have hsame := same_phase htag (hitag.symm.trans hjtag)
  by_cases hphase : i < ranks - 1
  · have hbehind : ∀ rank < ranks, ∀ round pair, (pairs r secondTag ranks rank)[round]? =
        some pair → 0 ≤ round → round < ranks - 1 → pair.source = predecessor rank ranks := by
      intro rank _ round pair hpair _ hlt
      rw [hsource rank round pair hpair, if_pos hlt]
    obtain ⟨hops, hpos, hway, hle⟩ :=
      hchained.exists_hops_sends hbehind (Nat.zero_le i) (hsame.1 hphase) hxy
    have haround := iterate_predecessor hr hops
    rw [← hway] at haround
    have hcases := mod_cases (show x.rank + hops < 2 * ranks by omega)
    omega
  · have hbehind : ∀ rank < ranks, ∀ round pair, (pairs r secondTag ranks rank)[round]? =
        some pair → ranks - 1 ≤ round → round < 2 * (ranks - 1) →
          pair.source = successor rank ranks := by
      intro rank _ round pair hpair hle _
      rw [hsource rank round pair hpair, if_neg (Nat.not_lt.2 hle)]
    obtain ⟨hops, hpos, hway, hle⟩ :=
      hchained.exists_hops_sends hbehind (Nat.le_of_not_lt hphase) hj hxy
    rw [iterate_successor hr hops] at hway
    have hcases := mod_cases (show x.rank + hops < 2 * ranks by omega)
    omega

theorem not_ordered_sends (htag : r.tag ≠ secondTag) (hrank : x.rank = y.rank)
    (hx : (Schedule.onWorld ranks (plan r secondTag ranks)).label? x = some (true, peer, tag))
    (hy : (Schedule.onWorld ranks (plan r secondTag ranks)).label? y = some (true, peer, tag)) :
    ¬(Schedule.onWorld ranks (plan r secondTag ranks)).Ordered x y := by
  rintro (hxy | hyx)
  · exact not_transGen_sends htag hrank hx hy hxy
  · exact not_transGen_sends htag hrank.symm hy hx hyx

/-- Two alike operations need a phase of two rounds. -/
theorem three_le_of_alike (htag : r.tag ≠ secondTag) (hrank : x.rank = y.rank) (hne : x ≠ y)
    (hx : (Schedule.onWorld ranks (plan r secondTag ranks)).label? x = some (sends, peer, tag))
    (hy : (Schedule.onWorld ranks (plan r secondTag ranks)).label? y = some (sends, peer, tag)) :
    3 ≤ ranks := by
  obtain ⟨-, i, hi, hitag, hxi⟩ := exists_round_of_label? hx
  obtain ⟨-, j, hj, hjtag, hyj⟩ := exists_round_of_label? hy
  rw [← hrank] at hyj
  have hdistinct : i ≠ j := by
    rintro rfl
    exact hne (hxi.trans hyj.symm)
  have hsame := same_phase htag (hitag.symm.trans hjtag)
  omega

end Labels
end Ring

namespace Builder

theorem unambiguous_or_ring (builder : Builder) :
    builder.pattern.Unambiguous ∨ ∃ r, builder.pattern = Ring.allreduce r := by
  cases builder with
  | tree size tag direction => exact Or.inl (Binomial.unambiguous size tag direction)
  | dissemination size tag => exact Or.inl (Dissemination.unambiguous size tag)
  | recursiveDoubling r => exact Or.inl (Butterfly.unambiguous r)
  | ring r => exact Or.inr ⟨r, rfl⟩
  | allreduce algorithm r =>
    show (Allreduce.pattern algorithm r).Unambiguous ∨ ∃ r', Allreduce.pattern algorithm r = _
    unfold Allreduce.pattern
    split
    · exact Or.inl (Butterfly.unambiguous r)
    · exact Or.inr ⟨r, rfl⟩
    · exact Or.inr ⟨r, rfl⟩
  | windowed request => exact Or.inl (Alltoall.unambiguous_windowed request)
  | balanced request => exact Or.inl (Alltoall.unambiguous_balanced request)
  | unbalanced request sizes => exact Or.inl (Alltoall.unambiguous_unbalanced request sizes)

/-- In every collective with any parameters on any number of ranks: if two operations of a rank are
both sends or both receives, with one peer and one tag, then the collective is a ring on at least
three ranks. There two such receives are ordered by what the operations wait for. Two such sends are
not, but the receives of their messages are. -/
theorem alike_ordered (builder : Builder) {ranks : Nat} {s : Schedule}
    (hs : builder.pattern.schedule ranks = .ok s) {x y : OpId} {sends : Bool} {peer : Nat}
    {tag : Tag} (hrank : x.rank = y.rank) (hne : x ≠ y)
    (hx : s.label? x = some (sends, peer, tag)) (hy : s.label? y = some (sends, peer, tag)) :
    (∃ r, builder.pattern = Ring.allreduce r) ∧ 3 ≤ ranks ∧
      (sends = false → s.Ordered x y) ∧
      (sends = true → ¬s.Ordered x y ∧
        ∃ u v, s.Matched x u ∧ s.Matched y v ∧ s.Ordered u v) := by
  obtain ⟨hranks, plans, hplans, rfl⟩ := Pattern.exists_plans (builder.coherent ranks) hs
  obtain ⟨level, hc⟩ := builder.coherent ranks plans hplans
  rcases builder.unambiguous_or_ring with hunambiguous | ⟨r, hring⟩
  · exact absurd (hc.eq_of_label? (hunambiguous ranks plans hplans) hrank hx hy) hne
  rw [hring] at hplans
  obtain ⟨secondTag, hsecond, rfl⟩ := Ring.exists_secondTag hplans
  have htag := Reduction.tag_ne_of_secondTag hsecond
  refine ⟨⟨r, hring⟩, Ring.three_le_of_alike htag hrank hne hx hy, ?_, ?_⟩
  · rintro rfl
    exact Ring.ordered_recvs hrank hne hx hy
  · rintro rfl
    refine ⟨Ring.not_ordered_sends htag hrank hx hy, ?_⟩
    have hagrees := (Schedule.leveled_onWorld hc).agrees
    obtain ⟨size, requires, hxop⟩ := Schedule.label?_send.1 hx
    obtain ⟨size', requires', hyop⟩ := Schedule.label?_send.1 hy
    obtain ⟨u, hu⟩ := hagrees.exists_receiver hxop
    obtain ⟨v, hv⟩ := hagrees.exists_receiver hyop
    obtain ⟨_, _, _, _, _, hxop', huop⟩ := hu.ops
    obtain ⟨_, _, _, _, _, hyop', hvop⟩ := hv.ops
    obtain ⟨⟨hxu, -⟩, -⟩ := by simpa [hxop] using hxop'
    obtain ⟨⟨hyv, -⟩, -⟩ := by simpa [hyop] using hyop'
    have hdistinct : u ≠ v := by
      rintro rfl
      exact hne (hu.sender_unique hv)
    exact ⟨u, v, hu, hv, Ring.ordered_recvs (hxu.symm.trans hyv) hdistinct
      (Schedule.label?_recv.2 ⟨_, _, huop⟩) (Schedule.label?_recv.2 ⟨_, _, hvop⟩)⟩

/-- On three ranks the two receives of a phase are ordered. -/
theorem alike_ordered_three :
    ∃ s x y, (Builder.ring ⟨1, 0, 0⟩).pattern.schedule 3 = .ok s ∧ x ≠ y ∧
      s.label? x = some (false, 2, 0) ∧ s.label? y = some (false, 2, 0) ∧ s.Ordered x y := by
  have hs : (Builder.ring ⟨1, 0, 0⟩).pattern.schedule 3 =
      .ok (.onWorld 3 (Ring.plan ⟨1, 0, 0⟩ 1 3)) := rfl
  have hfirst : (Schedule.onWorld 3 (Ring.plan ⟨1, 0, 0⟩ 1 3)).label? ⟨0, 1⟩ =
      some (false, 2, 0) := by decide
  have hsecond : (Schedule.onWorld 3 (Ring.plan ⟨1, 0, 0⟩ 1 3)).label? ⟨0, 3⟩ =
      some (false, 2, 0) := by decide
  have hrank : (⟨0, 1⟩ : OpId).rank = (⟨0, 3⟩ : OpId).rank := rfl
  have hordered := (alike_ordered (.ring ⟨1, 0, 0⟩) hs hrank (by decide) hfirst hsecond).2.2.1 rfl
  exact ⟨_, ⟨0, 1⟩, ⟨0, 3⟩, hs, by decide, hfirst, hsecond, hordered⟩

/-- But the two sends are not. -/
theorem alike_unordered_three :
    ∃ s x y, (Builder.ring ⟨1, 0, 0⟩).pattern.schedule 3 = .ok s ∧ x.rank = y.rank ∧ x ≠ y ∧
      s.label? x = some (true, 1, 0) ∧ s.label? y = some (true, 1, 0) ∧ ¬s.Ordered x y := by
  have hs : (Builder.ring ⟨1, 0, 0⟩).pattern.schedule 3 =
      .ok (.onWorld 3 (Ring.plan ⟨1, 0, 0⟩ 1 3)) := rfl
  have hfirst : (Schedule.onWorld 3 (Ring.plan ⟨1, 0, 0⟩ 1 3)).label? ⟨0, 0⟩ =
      some (true, 1, 0) := by decide
  have hsecond : (Schedule.onWorld 3 (Ring.plan ⟨1, 0, 0⟩ 1 3)).label? ⟨0, 2⟩ =
      some (true, 1, 0) := by decide
  exact ⟨_, ⟨0, 0⟩, ⟨0, 2⟩, hs, rfl, by decide, hfirst, hsecond,
    Ring.not_ordered_sends (by decide) rfl hfirst hsecond⟩

end Builder
end Collectives
