import Collectives.Proofs.Tree
import Collectives.Proofs.World
import Mathlib.Data.Nat.BitIndices

/-!
# The shape of a binomial tree

What a rank of a tree does, operation by operation: one message to or from its parent, which is the
rank with the highest bit cleared, and one from or to each of its children. So the way between a
rank and the root has a message for every bit of the rank.
-/

namespace Collectives

namespace Schedule

/-- Some message goes from the rank `a` to the rank `b`. -/
def Passes (s : Schedule) (a b : Nat) : Prop := ∃ x y, s.Matched x y ∧ x.rank = a ∧ y.rank = b

/-- A number of messages, one after another, lead from one rank to another. -/
inductive Route (s : Schedule) : (messages source destination : Nat) → Prop where
  | here (rank : Nat) : Route s 0 rank rank
  | step {messages a b c : Nat} (first : s.Passes a b) (rest : Route s messages b c) :
    Route s (messages + 1) a c

theorem Route.snoc {s : Schedule} {messages a b c : Nat} (h : s.Route messages a b)
    (last : s.Passes b c) : s.Route (messages + 1) a c := by
  induction h with
  | here => exact .step last (.here c)
  | step first _ ih => exact .step first (ih last)

/-- Where all messages go the other way, so do the routes. -/
theorem Route.reverse {s t : Schedule} (hback : ∀ a b, s.Passes a b → t.Passes b a)
    {messages a b : Nat} (h : s.Route messages a b) : t.Route messages b a := by
  induction h with
  | here rank => exact .here rank
  | step first _ ih => exact ih.snoc (hback _ _ first)

end Schedule

namespace Binomial

/-- The schedule of a tree. -/
def built (size : Nat) (tag : Tag) (direction : Direction) (ranks : Nat) : Schedule :=
  .onWorld ranks (plan size tag direction ranks)

variable {size : Nat} {tag : Tag} {ranks rank : Nat}

theorem parent?_zero (ranks : Nat) : parent? 0 ranks = none := by
  cases h : parent? 0 ranks with
  | none => rfl
  | some parent => exact absurd (parent?_lt h) (Nat.not_lt_zero _)

/-- The parent is the rank with the highest bit cleared. -/
theorem parent?_of_pos (hrank : rank < ranks) (hpos : rank ≠ 0) :
    parent? rank ranks = some (rank - 2 ^ rank.log2) :=
  (parent?_eq_some hrank).2
    ⟨rank.log2, Nat.log2_self_le hpos, Nat.lt_log2_self, rfl⟩

theorem schedule_eq (size : Nat) (tag : Tag) (direction : Direction) (hranks : 0 < ranks) :
    (tree size tag direction).schedule ranks = .ok (built size tag direction ranks) :=
  Pattern.schedule_eq hranks rfl (coherent_plan size tag direction ranks)

theorem leveled_built (size : Nat) (tag : Tag) (direction : Direction) (ranks : Nat) :
    ∃ level, (built size tag direction ranks).Leveled level :=
  ⟨_, Schedule.leveled_onWorld (coherent_plan size tag direction ranks)⟩

theorem lt_of_parent? {parent : Nat} (hrank : rank < ranks)
    (h : parent? rank ranks = some parent) : parent < ranks :=
  Nat.lt_trans (parent?_lt h) hrank

theorem lt_of_mem_children {child : Nat} (h : child ∈ children rank ranks) : child < ranks := by
  obtain ⟨step, -, -, hlt⟩ := mem_children.1 h
  exact hlt

/-- In a reduction, a rank sends to its parent after it has received from every child. -/
theorem opsAt_reduce (hrank : rank < ranks) :
    (built size tag .reduce ranks).opsAt rank =
      (parent? rank ranks).toList.map (fun parent =>
          ⟨.send parent size tag, Schedule.names rank 1 (children rank ranks).length⟩) ++
        (children rank ranks).map fun child => ⟨.recv child size tag, []⟩ := by
  rw [built, Schedule.opsAt_onWorld _ hrank, RankPlan.opsOn, flatten_plan]
  simp only [List.map_append, List.map_map]
  congr 1
  · apply List.map_congr_left
    intro parent hparent
    refine Planned.place_world ?_ ?_ (Schedule.nodup_names rank 1 _)
    · intro peer hpeer
      cases hpeer
      exact lt_of_parent? hrank (parent?_of_mem hparent)
    · simp only [Schedule.names, List.range'_eq_map_range, List.map_map]
      apply List.map_congr_left
      intro i _
      simp only [Function.comp_apply, Wait.resolve, Nat.zero_add, Nat.add_comm]
  · apply List.map_congr_left
    intro child hchild
    refine Planned.place_world ?_ rfl List.nodup_nil
    intro peer hpeer
    cases hpeer
    exact lt_of_mem_children hchild

/-- In a broadcast, a rank sends to every child after it has received from its parent. -/
theorem opsAt_broadcast (hrank : rank < ranks) :
    (built size tag .broadcast ranks).opsAt rank =
      (parent? rank ranks).toList.map (fun parent => ⟨.recv parent size tag, []⟩) ++
        (children rank ranks).map fun child =>
          ⟨.send child size tag, (parent? rank ranks).toList.map fun _ => ⟨rank, 0⟩⟩ := by
  rw [built, Schedule.opsAt_onWorld _ hrank, RankPlan.opsOn, flatten_plan]
  simp only [List.map_append, List.map_map]
  congr 1
  · apply List.map_congr_left
    intro parent hparent
    refine Planned.place_world ?_ rfl List.nodup_nil
    intro peer hpeer
    cases hpeer
    exact lt_of_parent? hrank (parent?_of_mem hparent)
  · apply List.map_congr_left
    intro child hchild
    refine Planned.place_world ?_ ?_ ?_
    · intro peer hpeer
      cases hpeer
      exact lt_of_mem_children hchild
    · rw [List.map_map]
      rfl
    · cases parent? rank ranks <;> simp

theorem opsAt_reduce_of_pos (hrank : rank < ranks) (hpos : rank ≠ 0) :
    (built size tag .reduce ranks).opsAt rank =
      ⟨.send (rank - 2 ^ rank.log2) size tag, Schedule.names rank 1 (children rank ranks).length⟩ ::
        (children rank ranks).map fun child => ⟨.recv child size tag, []⟩ := by
  rw [opsAt_reduce hrank, parent?_of_pos hrank hpos]
  rfl

theorem opsAt_broadcast_of_pos (hrank : rank < ranks) (hpos : rank ≠ 0) :
    (built size tag .broadcast ranks).opsAt rank =
      ⟨.recv (rank - 2 ^ rank.log2) size tag, []⟩ ::
        (children rank ranks).map fun child => ⟨.send child size tag, [⟨rank, 0⟩]⟩ := by
  rw [opsAt_broadcast hrank, parent?_of_pos hrank hpos]
  rfl

/-- In a reduction, the root sends nothing. -/
theorem sendsOf_reduce_zero (hranks : 0 < ranks) :
    (built size tag .reduce ranks).sendsOf 0 = [] := by
  rw [Schedule.sendsOf, opsAt_reduce hranks, parent?_zero]
  exact namesWhere_of_none (by simp [Action.isSend])

theorem sendsOf_reduce (hrank : rank < ranks) (hpos : rank ≠ 0) :
    (built size tag .reduce ranks).sendsOf rank = [⟨rank, 0⟩] := by
  rw [Schedule.sendsOf, opsAt_reduce_of_pos hrank hpos, namesWhere_cons_of_pos (by rfl),
    namesWhere_of_none (by simp [Action.isSend])]

theorem recvsOf_reduce (hrank : rank < ranks) (hpos : rank ≠ 0) :
    (built size tag .reduce ranks).recvsOf rank =
      Schedule.names rank 1 (children rank ranks).length := by
  rw [Schedule.recvsOf, opsAt_reduce_of_pos hrank hpos, namesWhere_cons_of_neg (by rfl),
    namesWhere_of_all (by simp [Action.isRecv]), List.length_map]

theorem op?_send_reduce (hrank : rank < ranks) (hpos : rank ≠ 0) :
    (built size tag .reduce ranks).op? ⟨rank, 0⟩ =
      some ⟨.send (rank - 2 ^ rank.log2) size tag,
        (built size tag .reduce ranks).recvsOf rank⟩ := by
  rw [Schedule.op?_eq, opsAt_reduce_of_pos hrank hpos, recvsOf_reduce hrank hpos]
  rfl

/-- An operation of a reduction is the send of its rank, or a receive that waits for nothing. -/
theorem cases_op_reduce {id : OpId} {op : Op}
    (hop : (built size tag .reduce ranks).op? id = some op) :
    id.rank < ranks ∧ ((id.rank ≠ 0 ∧ id = ⟨id.rank, 0⟩) ∨
      ∃ child ∈ children id.rank ranks, op = ⟨.recv child size tag, []⟩) := by
  obtain ⟨rank, index⟩ := id
  have hrank : rank < ranks := (Schedule.exists_planned hop).1
  refine ⟨hrank, ?_⟩
  rw [Schedule.op?_eq] at hop
  by_cases hpos : rank = 0
  · subst hpos
    rw [opsAt_reduce hrank, parent?_zero] at hop
    obtain ⟨child, hchild, rfl⟩ := List.mem_map.1 (List.mem_of_getElem? hop)
    exact Or.inr ⟨child, hchild, rfl⟩
  · rw [opsAt_reduce_of_pos hrank hpos] at hop
    cases index with
    | zero => exact Or.inl ⟨hpos, rfl⟩
    | succ index =>
      rw [List.getElem?_cons_succ] at hop
      obtain ⟨child, hchild, rfl⟩ := List.mem_map.1 (List.mem_of_getElem? hop)
      exact Or.inr ⟨child, hchild, rfl⟩

theorem requiresOf_recv_reduce {id : OpId} (h : id ∈ (built size tag .reduce ranks).recvsOf rank) :
    (built size tag .reduce ranks).requiresOf id = [] := by
  obtain ⟨rfl, op, hop, hrecv⟩ := Schedule.mem_recvsOf.1 h
  obtain ⟨hrank, ⟨hpos, hid⟩ | ⟨child, -, rfl⟩⟩ := cases_op_reduce hop
  · rw [hid, op?_send_reduce hrank hpos] at hop
    cases hop
    cases hrecv
  · exact Schedule.requiresOf_eq hop

theorem recvsOf_broadcast_zero (hranks : 0 < ranks) :
    (built size tag .broadcast ranks).recvsOf 0 = [] := by
  rw [Schedule.recvsOf, opsAt_broadcast hranks, parent?_zero]
  exact namesWhere_of_none (by simp [Action.isRecv])

theorem recvsOf_broadcast (hrank : rank < ranks) (hpos : rank ≠ 0) :
    (built size tag .broadcast ranks).recvsOf rank = [⟨rank, 0⟩] := by
  rw [Schedule.recvsOf, opsAt_broadcast_of_pos hrank hpos, namesWhere_cons_of_pos (by rfl),
    namesWhere_of_none (by simp [Action.isRecv])]

theorem op?_recv_broadcast (hrank : rank < ranks) (hpos : rank ≠ 0) :
    (built size tag .broadcast ranks).op? ⟨rank, 0⟩ =
      some ⟨.recv (rank - 2 ^ rank.log2) size tag, []⟩ := by
  rw [Schedule.op?_eq, opsAt_broadcast_of_pos hrank hpos]
  rfl

/-- An operation of a broadcast is the receive of its rank, or a send that waits for it. -/
theorem cases_op_broadcast {id : OpId} {op : Op}
    (hop : (built size tag .broadcast ranks).op? id = some op) :
    id.rank < ranks ∧ ((id.rank ≠ 0 ∧ id = ⟨id.rank, 0⟩) ∨
      ∃ child ∈ children id.rank ranks, op =
        ⟨.send child size tag, if id.rank = 0 then [] else [⟨id.rank, 0⟩]⟩) := by
  obtain ⟨rank, index⟩ := id
  have hrank : rank < ranks := (Schedule.exists_planned hop).1
  refine ⟨hrank, ?_⟩
  rw [Schedule.op?_eq] at hop
  by_cases hpos : rank = 0
  · subst hpos
    rw [opsAt_broadcast hrank, parent?_zero] at hop
    obtain ⟨child, hchild, rfl⟩ := List.mem_map.1 (List.mem_of_getElem? hop)
    exact Or.inr ⟨child, hchild, rfl⟩
  · rw [opsAt_broadcast_of_pos hrank hpos] at hop
    cases index with
    | zero => exact Or.inl ⟨hpos, rfl⟩
    | succ index =>
      rw [List.getElem?_cons_succ] at hop
      obtain ⟨child, hchild, rfl⟩ := List.mem_map.1 (List.mem_of_getElem? hop)
      exact Or.inr ⟨child, hchild, by rw [if_neg hpos]⟩

theorem requiresOf_send_broadcast (hpos : rank ≠ 0) {id : OpId}
    (h : id ∈ (built size tag .broadcast ranks).sendsOf rank) :
    (built size tag .broadcast ranks).requiresOf id = [⟨rank, 0⟩] := by
  obtain ⟨rfl, op, hop, hsend⟩ := Schedule.mem_sendsOf.1 h
  obtain ⟨hrank, ⟨-, hid⟩ | ⟨child, -, rfl⟩⟩ := cases_op_broadcast hop
  · rw [hid, op?_recv_broadcast hrank hpos] at hop
    cases hop
    cases hsend
  · rw [Schedule.requiresOf_eq hop, if_neg hpos]

/-- The messages of a reduction: each rank but the root sends one to its parent. -/
theorem passes_reduce {a b : Nat} :
    (built size tag .reduce ranks).Passes a b ↔ a < ranks ∧ a ≠ 0 ∧ b = a - 2 ^ a.log2 := by
  constructor
  · rintro ⟨x, y, hmatched, rfl, rfl⟩
    obtain ⟨_, _, _, _, _, hsend, -⟩ := hmatched.ops
    obtain ⟨hrank, ⟨hpos, hx⟩ | ⟨child, -, hop⟩⟩ := cases_op_reduce hsend
    · rw [hx, op?_send_reduce hrank hpos] at hsend
      obtain ⟨⟨hparent, -⟩, -⟩ := by simpa using hsend
      exact ⟨hrank, hpos, hparent.symm⟩
    · cases hop
  · rintro ⟨hrank, hpos, rfl⟩
    obtain ⟨level, hleveled⟩ := leveled_built size tag .reduce ranks
    have hsend := @op?_send_reduce size tag _ _ hrank hpos
    obtain ⟨y, hmatched⟩ := hleveled.agrees.exists_receiver hsend
    obtain ⟨_, _, _, _, _, hsend', -⟩ := hmatched.ops
    obtain ⟨⟨hparent, -⟩, -⟩ := by simpa [hsend] using hsend'
    exact ⟨_, y, hmatched, rfl, hparent.symm⟩

/-- The messages of a broadcast: each rank but the root receives one from its parent. -/
theorem passes_broadcast {a b : Nat} :
    (built size tag .broadcast ranks).Passes a b ↔ b < ranks ∧ b ≠ 0 ∧ a = b - 2 ^ b.log2 := by
  constructor
  · rintro ⟨x, y, hmatched, rfl, rfl⟩
    obtain ⟨_, _, _, _, _, -, hrecv⟩ := hmatched.ops
    obtain ⟨hrank, ⟨hpos, hy⟩ | ⟨child, -, hop⟩⟩ := cases_op_broadcast hrecv
    · rw [hy, op?_recv_broadcast hrank hpos] at hrecv
      obtain ⟨⟨hparent, -⟩, -⟩ := by simpa using hrecv
      exact ⟨hrank, hpos, hparent.symm⟩
    · cases hop
  · rintro ⟨hrank, hpos, rfl⟩
    obtain ⟨level, hleveled⟩ := leveled_built size tag .broadcast ranks
    have hrecv := @op?_recv_broadcast size tag _ _ hrank hpos
    obtain ⟨x, hmatched⟩ := hleveled.agrees.exists_sender hrecv
    obtain ⟨_, _, _, _, _, -, hrecv'⟩ := hmatched.ops
    obtain ⟨⟨hparent, -⟩, -⟩ := by simpa [hrecv] using hrecv'
    exact ⟨x, _, hmatched, hparent.symm, rfl⟩

/-- Clearing the highest bit leaves one bit less. -/
theorem length_bitIndices {n : Nat} (hn : n ≠ 0) :
    n.bitIndices.length = (n - 2 ^ n.log2).bitIndices.length + 1 := by
  induction n using Nat.strong_induction_on with
  | _ n ih =>
    by_cases hone : n = 1
    · subst hone
      rw [show 1 - 2 ^ Nat.log2 1 = 0 by decide, Nat.bitIndices_one, Nat.bitIndices_zero]
      rfl
    have hhalf : n / 2 ≠ 0 := by omega
    have hih := ih (n / 2) (by omega) hhalf
    have hle := Nat.log2_self_le hhalf
    have hlog : n.log2 = (n / 2).log2 + 1 := by
      rw [Nat.log2_def, if_pos (by omega)]
    have hpow : 2 ^ n.log2 = 2 * 2 ^ (n / 2).log2 := by rw [hlog, Nat.pow_succ, Nat.mul_comm]
    rcases Nat.mod_two_eq_zero_or_one n with heven | hodd
    · have hn2 : n = 2 * (n / 2) := by omega
      have hrest : n - 2 ^ n.log2 = 2 * (n / 2 - 2 ^ (n / 2).log2) := by omega
      rw [hrest, Nat.bitIndices_two_mul, List.length_map, ← hih]
      conv_lhs => rw [hn2, Nat.bitIndices_two_mul, List.length_map]
    · have hn2 : n = 2 * (n / 2) + 1 := by omega
      have hrest : n - 2 ^ n.log2 = 2 * (n / 2 - 2 ^ (n / 2).log2) + 1 := by omega
      rw [hrest, Nat.bitIndices_two_mul_add_one, List.length_cons, List.length_map, ← hih]
      conv_lhs => rw [hn2, Nat.bitIndices_two_mul_add_one, List.length_cons, List.length_map]

theorem cleared_lt {n : Nat} (hn : n ≠ 0) : n - 2 ^ n.log2 < n := by
  have := Nat.two_pow_pos n.log2
  omega

/-- In a reduction, the way from a rank to the root has a message for every bit of the rank. -/
theorem route_reduce {messages : Nat} (hrank : rank < ranks) :
    (built size tag .reduce ranks).Route messages rank 0 ↔
      messages = rank.bitIndices.length := by
  induction rank using Nat.strong_induction_on generalizing messages with
  | _ rank ih =>
    by_cases hpos : rank = 0
    · subst hpos
      rw [Nat.bitIndices_zero, List.length_nil]
      constructor
      · intro h
        cases h with
        | here => rfl
        | step first rest => exact absurd rfl (passes_reduce.1 first).2.1
      · rintro rfl
        exact .here 0
    · have hlt := cleared_lt hpos
      rw [length_bitIndices hpos]
      constructor
      · intro h
        cases h with
        | here => exact absurd rfl hpos
        | step first rest =>
          obtain ⟨-, -, rfl⟩ := passes_reduce.1 first
          rw [(ih _ hlt (by omega)).1 rest]
      · rintro rfl
        exact .step (passes_reduce.2 ⟨hrank, hpos, rfl⟩) ((ih _ hlt (by omega)).2 rfl)

/-- In a broadcast, so has the way from the root to a rank: the messages are those of a reduction,
the other way around. -/
theorem route_broadcast {messages : Nat} (hrank : rank < ranks) :
    (built size tag .broadcast ranks).Route messages 0 rank ↔
      messages = rank.bitIndices.length := by
  have hturned : ∀ {a b : Nat}, (built size tag .broadcast ranks).Passes b a ↔
      (built size tag .reduce ranks).Passes a b := by
    intro a b
    rw [passes_broadcast, passes_reduce]
  rw [← @route_reduce size tag ranks rank messages hrank]
  exact ⟨Schedule.Route.reverse fun _ _ => hturned.1, Schedule.Route.reverse fun _ _ => hturned.2⟩

end Binomial
end Collectives
