import Collectives.Proofs.PairedPlans
import Mathlib.Algebra.Order.Floor.Div
import Mathlib.Data.List.Chain
import Mathlib.Order.Bounds.Basic

/-!
# Chains of messages

A message precedes another when an end of the second waits for an end of the first, be it through
computations. The most messages that precede one another are the depth of a schedule: so many times
a message has to cross before all is done. When every pair waits for rounds at least `window` back,
and every send for the receive exactly so many rounds back, a message comes to one in `window`
rounds.
-/

namespace Collectives

namespace Schedule

/-- An operation waits for another, directly or through computations. -/
inductive Needs (s : Schedule) : (id dep : OpId) → Prop where
  | direct {id dep : OpId} (h : dep ∈ s.requiresOf id) : Needs s id dep
  | through {id dep between : OpId} {cost : Nat} {requires : List OpId}
      (h : between ∈ s.requiresOf id) (hcalc : s.op? between = some ⟨.calc cost, requires⟩)
      (rest : Needs s between dep) : Needs s id dep

/-- A send and the receive that it is matched with. -/
structure Message where
  sender : OpId
  receiver : OpId

def Message.ends (m : Message) : List OpId := [m.sender, m.receiver]

def Message.Precedes (s : Schedule) (m m' : Message) : Prop :=
  ∃ id ∈ m'.ends, ∃ dep ∈ m.ends, s.Needs id dep

/-- Messages of the schedule, each of which precedes the next. -/
structure MessageChain (s : Schedule) (chain : List Message) : Prop where
  matched : ∀ m ∈ chain, s.Matched m.sender m.receiver
  precedes : chain.IsChain (Message.Precedes s)

/-- The most messages in a chain. -/
def HasDepth (s : Schedule) (depth : Nat) : Prop :=
  IsGreatest {count | ∃ chain, s.MessageChain chain ∧ chain.length = count} depth

/-- A level of the messages, below `depth`, that grows from one to those that it precedes. -/
structure Layered (s : Schedule) (level : Message → Nat) (depth : Nat) : Prop where
  below : ∀ m : Message, s.Matched m.sender m.receiver → level m < depth
  grows : ∀ m m' : Message, s.Matched m.sender m.receiver → s.Matched m'.sender m'.receiver →
    Message.Precedes s m m' → level m < level m'

variable {s : Schedule} {m m' : Message} {chain : List Message} {level : Message → Nat}
  {depth : Nat}

theorem MessageChain.nil (s : Schedule) : s.MessageChain [] where
  matched := by simp
  precedes := List.isChain_nil

theorem MessageChain.singleton (hm : s.Matched m.sender m.receiver) : s.MessageChain [m] where
  matched := by simpa using hm
  precedes := List.isChain_singleton m

theorem MessageChain.tail (h : s.MessageChain (m :: chain)) : s.MessageChain chain where
  matched other hother := h.matched other (List.mem_cons_of_mem m hother)
  precedes := (List.isChain_cons.1 h.precedes).2

theorem MessageChain.cons (h : s.MessageChain chain) (hm : s.Matched m.sender m.receiver)
    (hfirst : ∀ next ∈ chain.head?, Message.Precedes s m next) : s.MessageChain (m :: chain) where
  matched := List.forall_mem_cons.2 ⟨hm, h.matched⟩
  precedes := List.isChain_cons.2 ⟨hfirst, h.precedes⟩

theorem MessageChain.snoc (h : s.MessageChain chain) (hm : s.Matched m.sender m.receiver)
    (hlast : ∀ latest ∈ chain.getLast?, Message.Precedes s latest m) :
    s.MessageChain (chain ++ [m]) where
  matched := by
    intro other hother
    rcases List.mem_append.1 hother with hother | hother
    · exact h.matched other hother
    · rwa [List.mem_singleton.1 hother]
  precedes := by
    refine List.isChain_append.2 ⟨h.precedes, List.isChain_singleton m, ?_⟩
    intro latest hlatest next hnext
    cases hnext
    exact hlast latest hlatest

/-- A chain climbs at least one level with each message. -/
theorem Layered.level_add_length_le (hlayered : s.Layered level depth)
    (h : s.MessageChain (m :: chain)) : level m + (m :: chain).length ≤ depth := by
  have hm := h.matched m List.mem_cons_self
  induction chain generalizing m with
  | nil => exact hlayered.below m hm
  | cons next chain ih =>
    have hnext := h.tail.matched next List.mem_cons_self
    have hgrow := hlayered.grows m next hm hnext (List.isChain_cons_cons.1 h.precedes).1
    have hrest := ih h.tail hnext
    simp only [List.length_cons] at hrest ⊢
    omega

theorem Layered.length_le (hlayered : s.Layered level depth) (h : s.MessageChain chain) :
    chain.length ≤ depth := by
  cases chain with
  | nil => exact Nat.zero_le depth
  | cons m chain => exact (Nat.le_add_left _ _).trans (hlayered.level_add_length_le h)

theorem Layered.hasDepth (hlayered : s.Layered level depth) (h : s.MessageChain chain)
    (hlength : chain.length = depth) : s.HasDepth depth := by
  refine ⟨⟨chain, h, hlength⟩, ?_⟩
  rintro count ⟨other, hother, rfl⟩
  exact hlayered.length_le hother

end Schedule

namespace PairedPlans

open Schedule

variable {ranks cost : Nat} {sendWaits recvWaits : Nat → List Wait} {pairsOf : Nat → List Pair}
  {plans : Nat → RankPlan} {rank round : Nat} {pair : Pair}

/-- The messages are those from the source of a pair to its rank. -/
theorem exists_pair_of_matched (h : PairedPlans ranks cost sendWaits recvWaits pairsOf plans)
    {m : Message} (hm : (onWorld ranks plans).Matched m.sender m.receiver) :
    ∃ rank < ranks, ∃ round pair, (pairsOf rank)[round]? = some pair ∧
      m = ⟨⟨pair.source, stride cost * round⟩, ⟨rank, stride cost * round + 1⟩⟩ := by
  obtain ⟨sender, rank, index⟩ := m
  obtain ⟨_, _, _, _, _, -, hrecv⟩ := hm.ops
  obtain ⟨hrank, ⟨_, _, -, -, haction⟩ | ⟨round, pair, hpair, rfl, -⟩ |
    ⟨_, _, -, -, -, haction⟩⟩ := h.cases_op hrecv
  · cases haction
  · have hsender := hm.sender_unique (h.matched hrank hpair)
    exact ⟨rank, hrank, round, pair, hpair, congrArg (Message.mk · _) hsender⟩
  · cases haction

/-- The rounds of plans in which a pair waits for nothing in the rounds less than `window` back, and
its send for the receive that lies just so far back. -/
structure Spaced (ranks cost window count : Nat) (sendWaits recvWaits : Nat → List Wait)
    (pairsOf : Nat → List Pair) (s : Schedule) : Prop where
  window_pos : 0 < window
  length_eq : ∀ rank, (pairsOf rank).length = count
  sends_far : ∀ round earlier, .own earlier ∈ sendWaits round →
    earlier / stride cost + window ≤ round
  recvs_far : ∀ round earlier, .own earlier ∈ recvWaits round →
    earlier / stride cost + window ≤ round
  needs : ∀ rank < ranks, ∀ round, round + window < count →
    s.Needs ⟨rank, stride cost * (round + window)⟩ ⟨rank, stride cost * round + 1⟩

/-- The operation `dep` lies at least `window` rounds back from `id`, or else `id` is a computation
of the same round. -/
def Behind (cost window : Nat) (s : Schedule) (dep id : OpId) : Prop :=
  dep.index / stride cost + window ≤ id.index / stride cost ∨
    dep.index / stride cost = id.index / stride cost ∧
      ∃ work requires, s.op? id = some ⟨.calc work, requires⟩

section Spaced

variable {window count : Nat}

/-- A computation waits for the receive of its own round. -/
theorem behind_of_mem_requiresOf (h : PairedPlans ranks cost sendWaits recvWaits pairsOf plans)
    (hspaced : Spaced ranks cost window count sendWaits recvWaits pairsOf (onWorld ranks plans))
    {id dep : OpId} (hdep : dep ∈ (onWorld ranks plans).requiresOf id) :
    Behind cost window (onWorld ranks plans) dep id := by
  cases hop : (onWorld ranks plans).op? id with
  | none => simp [requiresOf, hop] at hdep
  | some op =>
    obtain ⟨rank, index⟩ := id
    obtain ⟨hrank, ⟨round, pair, hpair, rfl, -⟩ | ⟨round, pair, hpair, rfl, -⟩ |
      ⟨round, pair, hpair, hcost, rfl, haction⟩⟩ := h.cases_op hop
    · obtain ⟨earlier, hwait, rfl⟩ := (h.mem_requiresOf_send hrank hpair).1 hdep
      left
      rw [Nat.mul_div_cancel_left _ (stride_pos cost)]
      exact hspaced.sends_far round earlier hwait
    · obtain ⟨earlier, hwait, rfl⟩ := (h.mem_requiresOf_recv hrank hpair).1 hdep
      left
      rw [mul_add_div_stride round (two_le_stride cost)]
      exact hspaced.recvs_far round earlier hwait
    · obtain rfl := (h.mem_requiresOf_calc hrank hpair hcost).1 hdep
      have hstride : stride cost = 3 := if_neg hcost
      refine Or.inr ⟨?_, cost, op.requires, by rw [hop, ← haction]⟩
      simp only [hstride]
      omega

theorem behind_of_needs (h : PairedPlans ranks cost sendWaits recvWaits pairsOf plans)
    (hspaced : Spaced ranks cost window count sendWaits recvWaits pairsOf (onWorld ranks plans))
    {id dep : OpId} (hneeds : (onWorld ranks plans).Needs id dep) :
    Behind cost window (onWorld ranks plans) dep id := by
  induction hneeds with
  | direct hdep => exact h.behind_of_mem_requiresOf hspaced hdep
  | through hbetween _ _ ih =>
    rcases h.behind_of_mem_requiresOf hspaced hbetween with hfar | ⟨hsame, hcalc⟩ <;>
      rcases ih with hrest | ⟨hrest, -⟩
    · exact Or.inl (by omega)
    · exact Or.inl (by omega)
    · exact Or.inl (by omega)
    · exact Or.inr ⟨by omega, hcalc⟩

theorem round_of_mem_ends (sender receiver round : Nat) {id : OpId}
    (hid : id ∈ Message.ends ⟨⟨sender, stride cost * round⟩, ⟨receiver, stride cost * round + 1⟩⟩) :
    id.index / stride cost = round := by
  rcases List.mem_pair.1 hid with rfl | rfl
  · exact mul_add_div_stride round (stride_pos cost)
  · exact mul_add_div_stride round (two_le_stride cost)

/-- A message gets no nearer than `window` rounds to one that it precedes. -/
theorem layered (h : PairedPlans ranks cost sendWaits recvWaits pairsOf plans)
    (hspaced : Spaced ranks cost window count sendWaits recvWaits pairsOf (onWorld ranks plans)) :
    (onWorld ranks plans).Layered (fun m => m.receiver.index / stride cost / window)
      (count ⌈/⌉ window) where
  below := by
    intro m hm
    obtain ⟨rank, -, round, pair, hpair, rfl⟩ := h.exists_pair_of_matched hm
    have hround : round < count := by
      rw [← hspaced.length_eq rank]
      exact (List.getElem?_eq_some_iff.1 hpair).1
    simp only [mul_add_div_stride round (two_le_stride cost)]
    by_contra hle
    have hcount := (ceilDiv_le_iff_le_mul hspaced.window_pos).1 (Nat.le_of_not_lt hle)
    have hback := Nat.mul_div_le round window
    omega
  grows := by
    rintro m m' hm hm' ⟨id, hid, dep, hdep, hneeds⟩
    have hcalc : ∀ work requires, (onWorld ranks plans).op? id ≠ some ⟨.calc work, requires⟩ := by
      intro work requires hop
      rcases List.mem_pair.1 hid with rfl | rfl
      · exact (not_matched_of_calc hop _).1 hm'
      · exact (not_matched_of_calc hop _).2 hm'
    obtain ⟨rank, -, round, pair, -, rfl⟩ := h.exists_pair_of_matched hm
    obtain ⟨rank', -, round', pair', -, rfl⟩ := h.exists_pair_of_matched hm'
    have hrounds := h.behind_of_needs hspaced hneeds
    rw [Behind, round_of_mem_ends _ _ _ hid, round_of_mem_ends _ _ _ hdep] at hrounds
    rcases hrounds with hfar | ⟨-, work, requires, hop⟩
    · simp only [mul_add_div_stride _ (two_le_stride cost)]
      calc round / window < round / window + 1 := Nat.lt_succ_self _
        _ = (round + window) / window := (Nat.add_div_right round hspaced.window_pos).symm
        _ ≤ round' / window := Nat.div_le_div_right hfar
    · exact absurd hop (hcalc work requires)

/-- One message in `window` rounds, and the last of them to any rank: each is sent by the rank that
received the one before. -/
theorem exists_chain (h : PairedPlans ranks cost sendWaits recvWaits pairsOf plans)
    (hspaced : Spaced ranks cost window count sendWaits recvWaits pairsOf (onWorld ranks plans))
    {i : Nat} (hi : window * i < count) (hrank : rank < ranks) :
    ∃ chain, (onWorld ranks plans).MessageChain chain ∧ chain.length = i + 1 ∧
      ∀ m ∈ chain.getLast?, m.receiver = ⟨rank, stride cost * (window * i) + 1⟩ := by
  have hget : ∀ {rank i : Nat}, window * i < count →
      ∃ pair, (pairsOf rank)[window * i]? = some pair := by
    intro rank i hi
    rw [← hspaced.length_eq rank] at hi
    exact ⟨_, List.getElem?_eq_getElem hi⟩
  induction i generalizing rank with
  | zero =>
    obtain ⟨pair, hpair⟩ := @hget rank 0 hi
    refine ⟨_, .singleton (m := ⟨_, _⟩) (h.matched hrank hpair), rfl, ?_⟩
    rintro m ⟨⟩
    rfl
  | succ i ih =>
    -- The chain so far has to end at the rank that sends in this round, whichever that is.
    obtain ⟨pair, hpair⟩ := @hget rank (i + 1) hi
    have hsource := (h.mirrored.ends rank hrank pair (List.mem_of_getElem? hpair)).1.1
    rw [Nat.mul_succ] at hi hpair ⊢
    have hfirst := Nat.lt_of_le_of_lt (Nat.le_add_right _ window) hi
    obtain ⟨chain, hchain, hlength, hlast⟩ := ih hfirst hsource
    refine ⟨_, hchain.snoc (m := ⟨_, _⟩) (h.matched hrank hpair) ?_, by simp [hlength], ?_⟩
    · intro latest hlatest
      refine ⟨_, List.mem_cons_self, latest.receiver, by simp [Message.ends], ?_⟩
      rw [hlast latest hlatest]
      exact hspaced.needs pair.source hsource (window * i) hi
    · rw [List.getLast?_concat]
      rintro m ⟨⟩
      rfl

theorem hasDepth (h : PairedPlans ranks cost sendWaits recvWaits pairsOf plans)
    (hranks : 0 < ranks)
    (hspaced : Spaced ranks cost window count sendWaits recvWaits pairsOf (onWorld ranks plans)) :
    (onWorld ranks plans).HasDepth (count ⌈/⌉ window) := by
  have hlayered := h.layered hspaced
  cases hdepth : count ⌈/⌉ window with
  | zero =>
    rw [hdepth] at hlayered
    exact hlayered.hasDepth (.nil _) rfl
  | succ i =>
    have hi : window * i < count := by
      by_contra hle
      have hless := (ceilDiv_le_iff_le_mul hspaced.window_pos).2 (Nat.le_of_not_lt hle)
      omega
    rw [hdepth] at hlayered
    obtain ⟨chain, hchain, hlength, -⟩ := h.exists_chain hspaced hi hranks
    exact hlayered.hasDepth hchain hlength

end Spaced
end PairedPlans
end Collectives
