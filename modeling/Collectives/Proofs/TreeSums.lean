import Collectives.Proofs.Executions
import Collectives.Proofs.TreeShape
import Mathlib.Algebra.BigOperators.Group.Finset.Piecewise

/-!
# What a tree computes

In a reduction no contribution is ever lost or doubled: it is in the sum of a rank that has not sent
yet, or in a message on its way. In a broadcast, all that is ever sent is the data of the root.
-/

namespace Collectives

/-- Every message takes the whole data of its rank along, which is chunk 0. The receiver adds it to
its own or puts it in place of that. -/
def Meaning.whole (adds : Bool) : Meaning where
  carried _ _ _ := {0}
  adds _ := adds

theorem merge_true (held : Multiset Nat) (value : Option (Multiset Nat)) :
    merge true held value = held + value.getD 0 := by
  cases value with
  | none => exact (Multiset.add_zero held).symm
  | some value => rfl

namespace Schedule

variable {s : Schedule} {adds : Bool} {memory : Memory} {id sender : OpId} {peer size : Nat}
  {tag : Tag} {requires : List OpId}

theorem exec_send (hop : s.op? id = some ⟨.send peer size tag, requires⟩) :
    s.exec (.whole adds) memory id = memory.send id fun chunk =>
      if chunk = 0 then some (memory.held id.rank chunk) else none := by
  simp [exec, hop, cargo, Meaning.whole]

theorem exec_recv (hop : s.op? id = some ⟨.recv peer size tag, requires⟩)
    (hmatched : s.Matched sender id) :
    s.exec (.whole adds) memory id = memory.put id.rank fun chunk =>
      merge adds (memory.held id.rank chunk) (memory.sent sender chunk) := by
  simp [exec, hop, sender?_eq_some.2 hmatched, Meaning.whole]

end Schedule

namespace Binomial

/-- The contributions that a rank is answerable for: what it holds until it sends, and then what it
has sent until that is received. -/
def share (s : Schedule) (done : List OpId) (memory : Memory) (rank : Nat) : Multiset Nat :=
  if rank ≠ 0 ∧ ⟨rank, 0⟩ ∈ done then
    if ∃ id ∈ done, s.sender? id = some ⟨rank, 0⟩ then 0 else (memory.sent ⟨rank, 0⟩ 0).getD 0
  else memory.held rank 0

section Reduce

variable {size : Nat} {tag : Tag} {ranks rank : Nat} {order done rest : List OpId}
  {memory : Memory} {id : OpId}

/-- A send hands over what its rank holds. -/
theorem share_send (h : (built size tag .reduce ranks).Order order)
    (hsplit : order = done ++ ⟨rank, 0⟩ :: rest) (hrank : rank < ranks) (hpos : rank ≠ 0)
    (other : Nat) :
    share (built size tag .reduce ranks) (done ++ [⟨rank, 0⟩])
        ((built size tag .reduce ranks).exec (.whole true) memory ⟨rank, 0⟩) other =
      share (built size tag .reduce ranks) done memory other := by
  have hop := @op?_send_reduce size tag _ _ hrank hpos
  have hnot := h.notMem_done hsplit
  have hself : (built size tag .reduce ranks).sender? ⟨rank, 0⟩ = none := by
    simp [Schedule.sender?, hop]
  rw [Schedule.exec_send hop]
  by_cases hother : other = rank
  · subst hother
    have hopen : ¬∃ id ∈ done ++ [⟨other, 0⟩],
        (built size tag .reduce ranks).sender? id = some ⟨other, 0⟩ := by
      rintro ⟨id, hid, hsender⟩
      rcases List.mem_append.1 hid with hdone | hlast
      · exact hnot (h.mem_of_mem hsplit hdone
          (.single (Or.inr (Schedule.sender?_eq_some.1 hsender))))
      · rw [List.mem_singleton.1 hlast, hself] at hsender
        cases hsender
    rw [share, share, if_pos ⟨hpos, by simp⟩, if_neg hopen, if_neg fun hmem => hnot hmem.2,
      Memory.sent_send_self]
    rfl
  · have hne : (⟨other, 0⟩ : OpId) ≠ ⟨rank, 0⟩ := fun heq => hother (congrArg OpId.rank heq)
    rw [share, share, Memory.sent_send_of_ne memory hne]
    simp [hne, hself, or_and_right, exists_or, Memory.send]

/-- A receive takes over what its sender has sent. -/
theorem share_recv (h : (built size tag .reduce ranks).Order order)
    (hsplit : order = done ++ id :: rest) {peer : Nat} {requires : List OpId}
    (hop : (built size tag .reduce ranks).op? id = some ⟨.recv peer size tag, requires⟩)
    (memory : Memory) :
    id.rank < ranks ∧ ∃ child < ranks, ∃ value, ∀ other,
      share (built size tag .reduce ranks) (done ++ [id])
          ((built size tag .reduce ranks).exec (.whole true) memory id) other +
          (if other = child then value else 0) =
        share (built size tag .reduce ranks) done memory other +
          if other = id.rank then value else 0 := by
  obtain ⟨level, hleveled⟩ := leveled_built size tag .reduce ranks
  obtain ⟨⟨child, index⟩, hmatched⟩ := hleveled.agrees.exists_sender hop
  obtain ⟨hchild, hpos, hparent⟩ := passes_reduce.1 ⟨_, id, hmatched, rfl, rfl⟩
  obtain rfl : index = 0 := by
    obtain ⟨_, _, _, _, _, hsend, -⟩ := hmatched.ops
    obtain ⟨-, ⟨-, heq⟩ | ⟨_, -, hrecv⟩⟩ := cases_op_reduce hsend
    · exact congrArg OpId.index heq
    · cases hrecv
  have hlt : id.rank < child := hparent ▸ cleared_lt hpos
  have hrank : id.rank < ranks := Nat.lt_trans hlt hchild
  have hnot := h.notMem_done hsplit
  have hsent : ⟨child, 0⟩ ∈ done := h.respects _ _ _ hsplit _ (Or.inr hmatched)
  have hsender := Schedule.sender?_eq_some.2 hmatched
  have hopen : ¬∃ y ∈ done, (built size tag .reduce ranks).sender? y = some ⟨child, 0⟩ := by
    rintro ⟨y, hy, hother⟩
    rw [(Schedule.sender?_eq_some.1 hother).receiver_unique hmatched] at hy
    exact hnot hy
  -- The parent has not sent yet, since its send waits for this receive.
  have hunsent : ¬(id.rank ≠ 0 ∧ ⟨id.rank, 0⟩ ∈ done ++ [id]) := by
    rintro ⟨hroot, hmem⟩
    have hsend := @op?_send_reduce size tag _ _ hrank hroot
    have hwaits : (built size tag .reduce ranks).Causes id ⟨id.rank, 0⟩ := by
      left
      rw [Schedule.requiresOf_eq hsend, Schedule.mem_recvsOf]
      exact ⟨rfl, _, hop, rfl⟩
    rcases List.mem_append.1 hmem with hdone | hlast
    · exact hnot (h.mem_of_mem hsplit hdone (.single hwaits))
    · rw [List.mem_singleton.1 hlast, hop] at hsend
      simp at hsend
  refine ⟨hrank, child, hchild, (memory.sent ⟨child, 0⟩ 0).getD 0, fun other => ?_⟩
  rw [Schedule.exec_recv hop hmatched]
  by_cases hother : other = child
  · subst hother
    have hbefore : share (built size tag .reduce ranks) done memory other =
        (memory.sent ⟨other, 0⟩ 0).getD 0 := by
      rw [share, if_pos ⟨hpos, hsent⟩, if_neg hopen]
    rw [hbefore, share, if_pos ⟨hpos, by simp [hsent]⟩, if_pos ⟨id, by simp, hsender⟩, if_pos rfl,
      if_neg hlt.ne', Multiset.zero_add, Multiset.add_zero]
  rw [if_neg hother, Multiset.add_zero]
  by_cases hself : other = id.rank
  · subst hself
    have hbefore : ¬(id.rank ≠ 0 ∧ ⟨id.rank, 0⟩ ∈ done) :=
      fun hmem => hunsent ⟨hmem.1, List.mem_append_left _ hmem.2⟩
    rw [share, share, if_neg hunsent, if_neg hbefore, if_pos rfl, Memory.held_put_self, merge_true]
  · have hne : (⟨other, 0⟩ : OpId) ≠ id := fun heq => hself (congrArg OpId.rank heq)
    have hnever : (built size tag .reduce ranks).sender? id ≠ some ⟨other, 0⟩ := by
      rw [hsender]
      simpa using Ne.symm hother
    rw [share, share, Memory.held_put_of_ne memory hself, if_neg hself, Multiset.add_zero]
    simp [hne, hnever, or_and_right, exists_or, Memory.put]

/-- At every time all contributions are there, each exactly once. -/
theorem sum_share (h : (built size tag .reduce ranks).Order order) (hsplit : order = done ++ rest) :
    ∑ rank ∈ Finset.range ranks, share (built size tag .reduce ranks) done
      ((built size tag .reduce ranks).execute (.whole true) done) rank = Multiset.range ranks := by
  induction done using List.reverseRecOn generalizing rest with
  | nil =>
    have hown : ∀ rank, share (built size tag .reduce ranks) [] Memory.start rank = {rank} := by
      intro rank
      simp [share, Memory.start]
    exact (Finset.sum_congr rfl fun rank _ => hown rank).trans (Finset.sum_multiset_singleton _)
  | append_singleton done id ih =>
    have hbefore : order = done ++ id :: rest := by simpa using hsplit
    rw [Schedule.execute_append, ← ih hbefore]
    obtain ⟨op, hop⟩ := Option.isSome_iff_exists.1 ((h.complete id).1 (by simp [hbefore]))
    obtain ⟨hrank, ⟨hpos, hid⟩ | ⟨child, -, rfl⟩⟩ := cases_op_reduce hop
    · rw [hid] at hbefore ⊢
      exact Finset.sum_congr rfl fun other _ => share_send h hbefore hrank hpos other
    · obtain ⟨hrank, child, hchild, value, hshare⟩ := share_recv h hbefore hop
        ((built size tag .reduce ranks).execute (.whole true) done)
      have hsum := Finset.sum_congr (Eq.refl (Finset.range ranks)) fun other _ => hshare other
      rw [Finset.sum_add_distrib, Finset.sum_add_distrib, Finset.sum_ite_eq', Finset.sum_ite_eq',
        if_pos (Finset.mem_range.2 hchild), if_pos (Finset.mem_range.2 hrank)] at hsum
      exact Multiset.add_left_inj.1 hsum

/-- In the end they are all at the root. -/
theorem held_reduce (hranks : 0 < ranks) (h : (built size tag .reduce ranks).Order order) :
    ((built size tag .reduce ranks).execute (.whole true) order).held 0 0 =
      Multiset.range ranks := by
  have hsum := sum_share h (List.append_nil order).symm
  rw [Finset.sum_eq_single_of_mem 0 (Finset.mem_range.2 hranks)] at hsum
  · rwa [share, if_neg (by simp)] at hsum
  · intro rank hrank hpos
    have hsend := @op?_send_reduce size tag _ _ (Finset.mem_range.1 hrank) hpos
    obtain ⟨level, hleveled⟩ := leveled_built size tag .reduce ranks
    obtain ⟨receiver, hmatched⟩ := hleveled.agrees.exists_receiver hsend
    have hsent : ⟨rank, 0⟩ ∈ order := (h.complete _).2 hmatched.isSome_sender
    have hreceived : receiver ∈ order := (h.complete _).2 hmatched.isSome_receiver
    rw [share, if_pos ⟨hpos, hsent⟩,
      if_pos ⟨receiver, hreceived, Schedule.sender?_eq_some.2 hmatched⟩]

end Reduce

section Broadcast

variable {size : Nat} {tag : Tag} {ranks : Nat} {order done rest : List OpId} {memory : Memory}
  {id : OpId}

/-- The root and every rank that has received hold the data of the root, and so does every message
that has been sent. -/
structure Informed (size : Nat) (tag : Tag) (ranks : Nat) (done : List OpId) (memory : Memory) :
    Prop where
  held : ∀ rank < ranks, rank = 0 ∨ ⟨rank, 0⟩ ∈ done → memory.held rank 0 = {0}
  sent : ∀ id ∈ done, id ∈ (built size tag .broadcast ranks).sendsOf id.rank →
    memory.sent id 0 = some {0}

theorem informed_recv (h : (built size tag .broadcast ranks).Order order) {rank : Nat}
    (hsplit : order = done ++ ⟨rank, 0⟩ :: rest) (hrank : rank < ranks) (hpos : rank ≠ 0)
    (hinformed : Informed size tag ranks done memory) :
    Informed size tag ranks (done ++ [⟨rank, 0⟩])
      ((built size tag .broadcast ranks).exec (.whole false) memory ⟨rank, 0⟩) := by
  have hop := @op?_recv_broadcast size tag _ _ hrank hpos
  obtain ⟨level, hleveled⟩ := leveled_built size tag .broadcast ranks
  obtain ⟨sender, hmatched⟩ := hleveled.agrees.exists_sender hop
  obtain ⟨_, _, _, _, _, hsend, -⟩ := hmatched.ops
  have hvalue : memory.sent sender 0 = some {0} :=
    hinformed.sent sender (h.respects _ _ _ hsplit _ (Or.inr hmatched))
      (Schedule.mem_sendsOf.2 ⟨rfl, _, hsend, rfl⟩)
  rw [Schedule.exec_recv hop hmatched]
  constructor
  · intro other hother hknows
    by_cases hself : other = rank
    · subst hself
      rw [Memory.held_put_self, hvalue]
      rfl
    · rw [Memory.held_put_of_ne memory hself]
      exact hinformed.held other hother (by simpa [hself] using hknows)
  · intro id hid hsend
    rcases List.mem_append.1 hid with hdone | hlast
    · exact hinformed.sent id hdone hsend
    · obtain ⟨-, op, hop', hissend⟩ := Schedule.mem_sendsOf.1 hsend
      rw [List.mem_singleton.1 hlast, hop] at hop'
      cases hop'
      cases hissend

theorem informed_send (h : (built size tag .broadcast ranks).Order order)
    (hsplit : order = done ++ id :: rest) (hrank : id.rank < ranks) {peer : Nat}
    (hop : (built size tag .broadcast ranks).op? id =
      some ⟨.send peer size tag, if id.rank = 0 then [] else [⟨id.rank, 0⟩]⟩)
    (hinformed : Informed size tag ranks done memory) :
    Informed size tag ranks (done ++ [id])
      ((built size tag .broadcast ranks).exec (.whole false) memory id) := by
  have hvalue : memory.held id.rank 0 = {0} := by
    apply hinformed.held id.rank hrank
    by_cases hroot : id.rank = 0
    · exact Or.inl hroot
    · right
      apply h.respects _ _ _ hsplit
      left
      rw [Schedule.requiresOf_eq hop]
      simp [hroot]
  rw [Schedule.exec_send hop]
  constructor
  · intro other hother hknows
    apply hinformed.held other hother
    by_cases hroot : other = 0
    · exact Or.inl hroot
    · refine Or.inr ((List.mem_append.1 (hknows.resolve_left hroot)).resolve_right fun hlast => ?_)
      have hrecv := @op?_recv_broadcast size tag _ _ hother hroot
      rw [List.mem_singleton.1 hlast, hop] at hrecv
      simp at hrecv
  · intro other hother hsend
    by_cases hself : other = id
    · subst hself
      rw [Memory.sent_send_self, if_pos rfl, hvalue]
    · rw [Memory.sent_send_of_ne memory hself]
      exact hinformed.sent other (by simpa [hself] using hother) hsend

theorem informed_execute (h : (built size tag .broadcast ranks).Order order)
    (hsplit : order = done ++ rest) :
    Informed size tag ranks done
      ((built size tag .broadcast ranks).execute (.whole false) done) := by
  induction done using List.reverseRecOn generalizing rest with
  | nil =>
    refine ⟨fun rank _ hknows => ?_, by simp⟩
    obtain rfl : rank = 0 := by simpa using hknows
    rfl
  | append_singleton done id ih =>
    have hbefore : order = done ++ id :: rest := by simpa using hsplit
    rw [Schedule.execute_append]
    obtain ⟨op, hop⟩ := Option.isSome_iff_exists.1 ((h.complete id).1 (by simp [hbefore]))
    obtain ⟨hrank, ⟨hpos, hid⟩ | ⟨child, -, rfl⟩⟩ := cases_op_broadcast hop
    · rw [hid] at hbefore ⊢
      exact informed_recv h hbefore hrank hpos (ih hbefore)
    · exact informed_send h hbefore hrank hop (ih hbefore)

theorem held_broadcast (h : (built size tag .broadcast ranks).Order order) {rank : Nat}
    (hrank : rank < ranks) :
    ((built size tag .broadcast ranks).execute (.whole false) order).held rank 0 = {0} := by
  apply (informed_execute h (List.append_nil order).symm).held rank hrank
  by_cases hpos : rank = 0
  · exact Or.inl hpos
  · exact Or.inr ((h.complete _).2 (Option.isSome_of_eq_some (op?_recv_broadcast hrank hpos)))

end Broadcast

/-- Whatever the size and the tag, both trees are built on any number of ranks, and they can run.
In a reduction the root sends nothing and every other rank sends once, to the rank with its highest
bit cleared, and requires for it exactly all its receives, which require nothing. In a broadcast the
root receives nothing and every other rank receives once, from the rank with its highest bit
cleared, and requires for each of its sends exactly this receive. The way from a rank to the root or
back has as many messages as the rank has bits set. Every order that respects what the operations
wait for leaves at the root of a reduction the contribution of each rank exactly once, and at every
rank of a broadcast the data of the root. -/
theorem trees_work (size : Nat) (tag : Tag) {ranks : Nat} (hranks : 0 < ranks) :
    (∃ s, (tree size tag .reduce).schedule ranks = .ok s ∧
      s.sendsOf 0 = [] ∧
      (∀ rank < ranks, rank ≠ 0 → ∃ id, s.sendsOf rank = [id] ∧
        s.op? id = some ⟨.send (rank - 2 ^ rank.log2) size tag, s.recvsOf rank⟩) ∧
      (∀ rank, ∀ id ∈ s.recvsOf rank, s.requiresOf id = []) ∧
      (∀ rank < ranks, ∀ messages,
        s.Route messages rank 0 ↔ messages = rank.bitIndices.length) ∧
      (∃ order, s.Order order) ∧
      ∀ order, s.Order order → (s.execute (.whole true) order).held 0 0 = Multiset.range ranks) ∧
    ∃ s, (tree size tag .broadcast).schedule ranks = .ok s ∧
      s.recvsOf 0 = [] ∧
      (∀ rank < ranks, rank ≠ 0 → ∃ id, s.recvsOf rank = [id] ∧
        s.op? id = some ⟨.recv (rank - 2 ^ rank.log2) size tag, []⟩ ∧
        ∀ send ∈ s.sendsOf rank, s.requiresOf send = [id]) ∧
      (∀ rank < ranks, ∀ messages,
        s.Route messages 0 rank ↔ messages = rank.bitIndices.length) ∧
      (∃ order, s.Order order) ∧
      ∀ order, s.Order order → ∀ rank < ranks,
        (s.execute (.whole false) order).held rank 0 = {0} := by
  obtain ⟨level, hreduce⟩ := leveled_built size tag .reduce ranks
  obtain ⟨level', hbroadcast⟩ := leveled_built size tag .broadcast ranks
  refine ⟨⟨_, schedule_eq size tag .reduce hranks, sendsOf_reduce_zero hranks, ?_,
      fun rank id hid => requiresOf_recv_reduce hid,
      fun rank hrank messages => route_reduce hrank, hreduce.exists_order,
      fun order h => held_reduce hranks h⟩,
    ⟨_, schedule_eq size tag .broadcast hranks, recvsOf_broadcast_zero hranks, ?_,
      fun rank hrank messages => route_broadcast hrank, hbroadcast.exists_order,
      fun order h rank hrank => held_broadcast h hrank⟩⟩
  · intro rank hrank hpos
    exact ⟨_, sendsOf_reduce hrank hpos, op?_send_reduce hrank hpos⟩
  · intro rank hrank hpos
    exact ⟨_, recvsOf_broadcast hrank hpos, op?_recv_broadcast hrank hpos,
      fun send hsend => requiresOf_send_broadcast hpos hsend⟩

/-- On six ranks the last one, with two bits set, is two messages away from the root. -/
theorem trees_work_six :
    0 < 6 ∧
    (∃ s order, (tree 64 0 .reduce).schedule 6 = .ok s ∧ s.Order order ∧ s.Route 2 5 0 ∧
      (s.execute (.whole true) order).held 0 0 = Multiset.range 6) ∧
    ∃ s order, (tree 64 0 .broadcast).schedule 6 = .ok s ∧ s.Order order ∧ s.Route 2 0 5 ∧
      (s.execute (.whole false) order).held 5 0 = {0} := by
  obtain ⟨⟨s, hs, -, -, -, hroute, ⟨order, horder⟩, hheld⟩,
    t, ht, -, -, hroute', ⟨order', horder'⟩, hheld'⟩ := @trees_work 64 0 6 (by decide)
  have hbits : 2 = (Nat.bitIndices 5).length := by decide
  exact ⟨by decide,
    ⟨s, order, hs, horder, (hroute 5 (by decide) 2).2 hbits, hheld order horder⟩,
    ⟨t, order', ht, horder', (hroute' 5 (by decide) 2).2 hbits,
      hheld' order' horder' 5 (by decide)⟩⟩

end Binomial
end Collectives
