import Collectives.Proofs.Duality
import Collectives.Proofs.MessageChains

/-!
# The depth of a tree

In a reduction every message takes away a one of the rank that it comes from, and the rank with the
most ones is the last below a power of two. A schedule and its reverse have the same depth, so the
broadcast needs no counting of its own.
-/

namespace Collectives

open Schedule

namespace Schedule

def Message.turned (m : Message) : Message := ⟨m.receiver, m.sender⟩

variable {s t : Schedule} {m m' : Message} {chain : List Message} {depth : Nat}

/-- The ends on a channel are known from what is selected at each place. -/
theorem endsFrom_congr {size? size?' : Action → Option Nat} {ops ops' : List Op}
    (h : ops.map (fun op => size? op.action) = ops'.map fun op => size?' op.action)
    (rank base : Nat) : endsFrom size? rank base ops = endsFrom size?' rank base ops' := by
  have hends : ∀ (size? : Action → Option Nat) (ops : List Op), endsFrom size? rank base ops =
      ((ops.map fun op => size? op.action).zipIdx base).filterMap fun e =>
        e.1.map (⟨rank, e.2⟩, ·) := by
    intro size? ops
    rw [List.zipIdx_map, List.filterMap_map]
    rfl
  rw [hends, hends, h]

namespace Reverses

theorem symm (h : s.Reverses t) : t.Reverses s where
  rankCount := h.rankCount.symm
  opCount rank := (h.opCount rank).symm
  opposite id op back hop hback := (h.opposite id back op hback hop).symm
  edges id dep := (h.edges dep id).symm

theorem exists_opposite (h : s.Reverses t) {id : OpId} {op : Op} (hop : s.op? id = some op) :
    ∃ back, t.op? id = some back ∧ op.action.Opposite back.action := by
  have hsome : (t.op? id).isSome = true := by
    rw [isSome_op?, ← h.opCount, ← isSome_op?, hop]
    rfl
  obtain ⟨back, hback⟩ := Option.isSome_iff_exists.1 hsome
  exact ⟨back, hback, h.opposite id op back hop hback⟩

/-- What goes out on a channel comes in on the one the other way around. -/
theorem incoming_eq (h : s.Reverses t) (source destination : Nat) (tag : Tag) :
    t.incoming destination source tag = s.outgoing source destination tag := by
  apply endsFrom_congr
  apply List.ext_getElem
  · simp [h.opCount]
  · intro index hback hop
    rw [List.length_map] at hback hop
    have hopposite := h.opposite ⟨source, index⟩ _ _
      ((s.op?_eq _).trans (List.getElem?_eq_getElem hop))
      ((t.op?_eq _).trans (List.getElem?_eq_getElem hback))
    rw [List.getElem_map, List.getElem_map]
    generalize ((s.opsAt source)[index]).action = action,
      ((t.opsAt source)[index]).action = other at hopposite ⊢
    cases hopposite <;> rfl

theorem matched (h : s.Reverses t) {sender receiver : OpId} (hm : s.Matched sender receiver) :
    t.Matched receiver sender := by
  obtain ⟨source, destination, tag, k, hsender, hreceiver⟩ := hm
  refine ⟨destination, source, tag, k, ?_, ?_⟩
  · rw [← h.symm.incoming_eq]
    exact hreceiver
  · rw [h.incoming_eq]
    exact hsender

/-- Such a schedule computes nothing, so an operation needs just what it requires. -/
theorem needs_iff (h : s.Reverses t) {id dep : OpId} :
    s.Needs id dep ↔ dep ∈ s.requiresOf id := by
  constructor
  · intro hneeds
    cases hneeds with
    | direct hdep => exact hdep
    | through _ hcalc _ =>
      obtain ⟨back, -, hopposite⟩ := h.exists_opposite hcalc
      cases hopposite
  · exact .direct

theorem precedes (h : s.Reverses t) (hprecedes : Message.Precedes s m m') :
    Message.Precedes t m'.turned m.turned := by
  obtain ⟨id, hid, dep, hdep, hneeds⟩ := hprecedes
  refine ⟨dep, List.mem_pair.2 (List.mem_pair.1 hdep).symm, id,
    List.mem_pair.2 (List.mem_pair.1 hid).symm, ?_⟩
  rw [h.symm.needs_iff, ← h.edges, ← h.needs_iff]
  exact hneeds

theorem messageChain (h : s.Reverses t) (hchain : s.MessageChain chain) :
    t.MessageChain (chain.map Message.turned).reverse where
  matched := by
    intro m hm
    obtain ⟨back, hback, rfl⟩ := List.mem_map.1 (List.mem_reverse.1 hm)
    exact h.matched (hchain.matched back hback)
  precedes := by
    rw [List.isChain_reverse, List.isChain_map]
    exact hchain.precedes.imp fun _ _ => h.precedes

/-- Chains are turned around, so none gets longer. -/
theorem hasDepth (h : s.Reverses t) (hs : s.HasDepth depth) : t.HasDepth depth := by
  obtain ⟨⟨chain, hchain, hlength⟩, hmost⟩ := hs
  refine ⟨⟨_, h.messageChain hchain, by simpa using hlength⟩, ?_⟩
  rintro count ⟨back, hback, rfl⟩
  exact hmost ⟨_, h.symm.messageChain hback, by simp⟩

end Reverses
end Schedule

namespace Binomial

variable {size : Nat} {tag : Tag} {ranks rank : Nat} {m m' : Message}

/-- The least number with so many ones is the last below a power of two. -/
theorem two_pow_ones_le (n : Nat) : 2 ^ n.bitIndices.length ≤ n + 1 := by
  induction n using Nat.strong_induction_on with
  | _ n ih =>
    by_cases hn : n = 0
    · subst hn
      simp
    · have hle := Nat.log2_self_le hn
      have hlt : n < 2 ^ (n.log2 + 1) := Nat.lt_log2_self
      have hcleared := ih _ (cleared_lt hn)
      rw [length_bitIndices hn, Nat.pow_succ]
      rw [Nat.pow_succ] at hlt
      omega

theorem ones_le (hrank : rank < ranks) : rank.bitIndices.length ≤ ranks.log2 := by
  rw [Nat.le_log2 (Nat.ne_zero_of_lt hrank)]
  exact (two_pow_ones_le rank).trans hrank

theorem ones_two_pow_sub_one (k : Nat) : (2 ^ k - 1).bitIndices.length = k := by
  induction k with
  | zero => simp
  | succ k ih =>
    have hpos := Nat.two_pow_pos k
    rw [show 2 ^ (k + 1) - 1 = 2 * (2 ^ k - 1) + 1 by rw [Nat.pow_succ]; omega,
      Nat.bitIndices_two_mul_add_one, List.length_cons, List.length_map, ih]

theorem eq_of_matched_reduce {sender receiver : OpId}
    (hm : (built size tag .reduce ranks).Matched sender receiver) :
    (built size tag .reduce ranks).op? sender =
        some ⟨.send (sender.rank - 2 ^ sender.rank.log2) size tag,
          (built size tag .reduce ranks).recvsOf sender.rank⟩ ∧
      receiver ∈ (built size tag .reduce ranks).recvsOf receiver.rank := by
  obtain ⟨_, _, _, _, _, hsend, hrecv⟩ := hm.ops
  obtain ⟨hrank, ⟨hpos, hsender⟩ | ⟨child, -, hop⟩⟩ := cases_op_reduce hsend
  · refine ⟨?_, mem_recvsOf.2 ⟨rfl, _, hrecv, rfl⟩⟩
    rw [← op?_send_reduce hrank hpos, ← hsender]
  · cases hop

/-- In a reduction, a message precedes another when it ends at the rank that sends the other. -/
theorem precedes_iff (hm : (built size tag .reduce ranks).Matched m.sender m.receiver)
    (hm' : (built size tag .reduce ranks).Matched m'.sender m'.receiver) :
    Message.Precedes (built size tag .reduce ranks) m m' ↔ m.receiver.rank = m'.sender.rank := by
  obtain ⟨hsend, hreceived⟩ := eq_of_matched_reduce hm
  obtain ⟨hsend', hreceived'⟩ := eq_of_matched_reduce hm'
  constructor
  · rintro ⟨id, hid, dep, hdep, hneeds⟩
    have hrequires := (reverses size tag ranks).needs_iff.1 hneeds
    rcases List.mem_pair.1 hid with rfl | rfl
    · rw [requiresOf_eq hsend'] at hrequires
      obtain ⟨hrank, op, hop, hrecv⟩ := mem_recvsOf.1 hrequires
      rcases List.mem_pair.1 hdep with rfl | rfl
      · rw [hsend] at hop
        cases hop
        cases hrecv
      · exact hrank
    · rw [requiresOf_recv_reduce hreceived'] at hrequires
      cases hrequires
  · intro hmeet
    refine ⟨_, List.mem_cons_self, m.receiver, by simp [Message.ends], .direct ?_⟩
    rw [requiresOf_eq hsend', ← hmeet]
    exact hreceived

/-- A message of a reduction takes away a one of the rank that it comes from. -/
theorem ones_of_matched (hm : (built size tag .reduce ranks).Matched m.sender m.receiver) :
    m.sender.rank < ranks ∧
      m.sender.rank.bitIndices.length = m.receiver.rank.bitIndices.length + 1 := by
  obtain ⟨hrank, hpos, hparent⟩ := passes_reduce.1 ⟨_, _, hm, rfl, rfl⟩
  refine ⟨hrank, ?_⟩
  rw [hparent]
  exact length_bitIndices hpos

theorem layered_reduce (size : Nat) (tag : Tag) (ranks : Nat) :
    (built size tag .reduce ranks).Layered
      (fun m => ranks.log2 - m.sender.rank.bitIndices.length) ranks.log2 where
  below := by
    intro m hm
    obtain ⟨hrank, hones⟩ := ones_of_matched hm
    have hle := ones_le hrank
    omega
  grows := by
    intro m m' hm hm' hprecedes
    obtain ⟨hrank, hones⟩ := ones_of_matched hm
    obtain ⟨-, hones'⟩ := ones_of_matched hm'
    have hle := ones_le hrank
    rw [(precedes_iff hm hm').1 hprecedes] at hones
    omega

/-- The messages from a rank to the root, one for every one of the rank. -/
theorem exists_chain_reduce (hrank : rank < ranks) :
    ∃ chain, (built size tag .reduce ranks).MessageChain chain ∧
      chain.length = rank.bitIndices.length ∧ ∀ m ∈ chain.head?, m.sender.rank = rank := by
  induction rank using Nat.strong_induction_on with
  | _ rank ih =>
    by_cases hpos : rank = 0
    · subst hpos
      exact ⟨[], .nil _, by simp, by simp⟩
    · have hlt := cleared_lt hpos
      obtain ⟨chain, hchain, hlength, hfirst⟩ := ih _ hlt (hlt.trans hrank)
      obtain ⟨sender, receiver, hm, hsender, hreceiver⟩ :=
        (@passes_reduce size tag ranks rank _).2 ⟨hrank, hpos, rfl⟩
      refine ⟨⟨sender, receiver⟩ :: chain, hchain.cons hm ?_, ?_, ?_⟩
      · intro next hnext
        have hnext' := hchain.matched next (List.mem_of_mem_head? hnext)
        exact (precedes_iff hm hnext').2 (hreceiver.trans (hfirst next hnext).symm)
      · rw [List.length_cons, hlength, ← length_bitIndices hpos]
      · rintro m ⟨⟩
        exact hsender

theorem hasDepth_reduce (size : Nat) (tag : Tag) (hranks : 0 < ranks) :
    (built size tag .reduce ranks).HasDepth ranks.log2 := by
  have hpos := Nat.two_pow_pos ranks.log2
  have hle := Nat.log2_self_le hranks.ne'
  have hlast : 2 ^ ranks.log2 - 1 < ranks := by omega
  obtain ⟨chain, hchain, hlength, -⟩ := @exists_chain_reduce size tag ranks _ hlast
  rw [ones_two_pow_sub_one] at hlength
  exact (layered_reduce size tag ranks).hasDepth hchain hlength

theorem hasDepth (size : Nat) (tag : Tag) (direction : Direction) (hranks : 0 < ranks) :
    (built size tag direction ranks).HasDepth ranks.log2 := by
  have hreduce := hasDepth_reduce size tag hranks
  cases direction with
  | reduce => exact hreduce
  | broadcast => exact (reverses size tag ranks).hasDepth hreduce

end Binomial
end Collectives
