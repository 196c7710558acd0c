import Collectives.Proofs.Levels
import Mathlib.Data.List.Sort

/-!
# Orders

An order in which all operations of a schedule can run one by one: nothing runs before what it
requires, and no receive before its send. Levels give one for every leveled schedule.
-/

namespace Collectives.Schedule

/-- All operations, each once and none before what causes it. -/
structure Order (s : Schedule) (order : List OpId) : Prop where
  nodup : order.Nodup
  complete : ∀ id, id ∈ order ↔ (s.op? id).isSome = true
  respects : ∀ done id rest, order = done ++ id :: rest → ∀ cause, s.Causes cause id → cause ∈ done

variable {s : Schedule} {level : OpId → Nat}

namespace Order

variable {order done rest : List OpId} {id : OpId}

/-- What indirectly causes an operation runs before it as well. -/
theorem mem_of_transGen (h : s.Order order) (hsplit : order = done ++ id :: rest) {cause : OpId}
    (hcause : Relation.TransGen s.Causes cause id) : cause ∈ done := by
  induction hcause generalizing done rest with
  | single hstep => exact h.respects _ _ _ hsplit _ hstep
  | @tail middle id _ hstep ih =>
    have hmiddle := h.respects _ _ _ hsplit _ hstep
    obtain ⟨front, back, rfl⟩ := List.append_of_mem hmiddle
    have hfront : order = front ++ middle :: (back ++ id :: rest) := by simpa using hsplit
    exact List.mem_append_left _ (ih hfront)

theorem notMem_done (h : s.Order order) (hsplit : order = done ++ id :: rest) : id ∉ done := by
  have hnodup := h.nodup
  rw [hsplit, List.nodup_append] at hnodup
  intro hmem
  exact hnodup.2.2 id hmem id (by simp) rfl

theorem mem_of_mem {front back : List OpId} (h : s.Order order) (hsplit : order = front ++ back)
    {cause : OpId} (hid : id ∈ front) (hcause : Relation.TransGen s.Causes cause id) :
    cause ∈ front := by
  obtain ⟨done, rest, rfl⟩ := List.append_of_mem hid
  have hdone : order = done ++ id :: (rest ++ back) := by simpa using hsplit
  exact List.mem_append_left _ (h.mem_of_transGen hdone hcause)

/-- In a list without duplicates it is enough to find what causes an operation before it at some
split: there is only one. -/
theorem of_split (hnodup : order.Nodup) (hcomplete : ∀ id, id ∈ order ↔ (s.op? id).isSome = true)
    (hsplit : ∀ id ∈ order, ∀ cause, s.Causes cause id →
      ∃ front back, order = front ++ id :: back ∧ cause ∈ front) : s.Order order where
  nodup := hnodup
  complete := hcomplete
  respects := by
    rintro done id rest rfl cause hcause
    obtain ⟨front, back, heq, hmem⟩ := hsplit id (by simp) cause hcause
    have honce : id ∉ done ++ rest := (List.nodup_cons.1 (List.nodup_middle.1 hnodup)).1
    rw [List.mem_append, not_or] at honce
    obtain ⟨rfl, -, -⟩ := (List.append_cons_inj_of_notMem honce.1 honce.2).1 heq
    exact hmem

/-- Operations that wait only for each other can be moved to the front of an order. -/
theorem hoist (h : s.Order order) {past : OpId → Prop} [DecidablePred past]
    (hpast : ∀ cause id, s.Causes cause id → past id → past cause) :
    s.Order (order.filter past ++ order.filter fun id => ¬past id) := by
  have hperm : (order.filter past ++ order.filter fun id => ¬past id).Perm order := by
    simpa using List.filter_append_perm (fun id => decide (past id)) order
  refine of_split (hperm.nodup_iff.2 h.nodup) (fun id => by rw [hperm.mem_iff, h.complete]) ?_
  intro id hid cause hcause
  obtain ⟨front, back, rfl⟩ := List.append_of_mem (hperm.mem_iff.1 hid)
  have hfront := h.respects _ _ _ rfl cause hcause
  by_cases hin : past id
  · refine ⟨front.filter past,
      back.filter past ++ (front ++ id :: back).filter fun id => ¬past id, ?_, ?_⟩
    · simp [List.filter_append, hin]
    · exact List.mem_filter.2 ⟨hfront, by simpa using hpast cause id hcause hin⟩
  · refine ⟨(front ++ id :: back).filter past ++ front.filter fun id => ¬past id,
      back.filter fun id => ¬past id, ?_, ?_⟩
    · simp [List.filter_append, hin]
    · by_cases hcin : past cause
      · exact List.mem_append_left _ (List.mem_filter.2 ⟨by simp [hfront], by simpa using hcin⟩)
      · exact List.mem_append_right _ (List.mem_filter.2 ⟨hfront, by simpa using hcin⟩)

end Order

/-- Where levels put an operation in an order: the receives of a level come after its sends. -/
def orderKey (s : Schedule) (level : OpId → Nat) (id : OpId) : Nat :=
  2 * level id + if ((s.op? id).elim false (·.action.isRecv)) = true then 1 else 0

theorem Causes.isSome (h : s.Leveled level) {cause id : OpId} (hcause : s.Causes cause id) :
    (s.op? cause).isSome = true := by
  rcases hcause with hdep | hmatched
  · exact (h.mem_requiresOf hdep).1
  · exact hmatched.isSome_sender

theorem Causes.isSome_later {cause id : OpId} (hcause : s.Causes cause id) :
    (s.op? id).isSome = true := by
  rcases hcause with hdep | hmatched
  · cases hop : s.op? id with
    | none => simp [requiresOf, hop] at hdep
    | some op => rfl
  · exact hmatched.isSome_receiver

theorem orderKey_lt (h : s.Leveled level) {cause id : OpId} (hcause : s.Causes cause id) :
    s.orderKey level cause < s.orderKey level id := by
  rcases hcause with hdep | hmatched
  · have hlevel := (h.mem_requiresOf hdep).2.2
    unfold orderKey
    split_ifs <;> omega
  · have hlevel := h.agrees.of_matched hmatched
    obtain ⟨size, size', tag, requires, requires', hsend, hrecv⟩ := hmatched.ops
    simp [orderKey, hsend, hrecv, Action.isRecv, hlevel]

/-- A list that is sorted by a key which grows from cause to effect respects causes. -/
theorem respects_of_sorted {key : OpId → Nat}
    (hkey : ∀ cause id, s.Causes cause id → key cause < key id)
    {order done rest : List OpId} {id cause : OpId}
    (hsorted : order.Pairwise fun a b => key a ≤ key b) (hsplit : order = done ++ id :: rest)
    (hmem : cause ∈ order) (hcause : s.Causes cause id) : cause ∈ done := by
  subst hsplit
  have hlt := hkey cause id hcause
  rcases List.mem_append.1 hmem with hdone | hlater
  · exact hdone
  · exfalso
    have htail := (List.pairwise_append.1 hsorted).2.1
    rcases List.mem_cons.1 hlater with rfl | hrest
    · exact Nat.lt_irrefl _ hlt
    · have hle := (List.pairwise_cons.1 htail).1 cause hrest
      omega

def Sooner (s : Schedule) (level : OpId → Nat) (a b : OpId) : Prop :=
  s.orderKey level a ≤ s.orderKey level b

instance (s : Schedule) (level : OpId → Nat) : DecidableRel (s.Sooner level) :=
  fun _ _ => Nat.decLe _ _

instance (s : Schedule) (level : OpId → Nat) : Std.Total (s.Sooner level) :=
  ⟨fun _ _ => Nat.le_total _ _⟩

instance (s : Schedule) (level : OpId → Nat) : IsTrans OpId (s.Sooner level) :=
  ⟨fun _ _ _ => Nat.le_trans⟩

/-- A leveled schedule can run. -/
theorem Leveled.exists_order (h : s.Leveled level) : ∃ order, s.Order order := by
  have hperm := List.perm_insertionSort (s.Sooner level) s.ids.toList
  have hsorted := List.pairwise_insertionSort (s.Sooner level) s.ids.toList
  have hmem : ∀ id, id ∈ s.ids.toList.insertionSort (s.Sooner level) ↔
      (s.op? id).isSome = true := by
    intro id
    rw [hperm.mem_iff, Finset.mem_toList, mem_ids]
  refine ⟨_, hperm.nodup_iff.2 s.ids.nodup_toList, hmem, ?_⟩
  intro done id rest hsplit cause hcause
  exact respects_of_sorted (fun _ _ => orderKey_lt h) hsorted hsplit
    ((hmem cause).2 (hcause.isSome h)) hcause

end Collectives.Schedule
