import Collectives.Proofs.Calls
import Mathlib.Data.Finset.Card
import Mathlib.Order.WellFounded

/-!
# Rendezvous

An execution in which a send and its receive complete together, when nothing that either of them
waits for is open. Levels are lower along dependencies and equal at the two ends of a message. So an
open operation of the least level can always complete, and no execution gets stuck.
-/

namespace Collectives

namespace Schedule

def Ready (s : Schedule) (done : Finset OpId) (id : OpId) : Prop :=
  ∀ dep ∈ s.requiresOf id, dep ∈ done

/-- A step of an execution in which the operations `done` have completed: a computation completes,
or the two ends of a message together. -/
inductive Completes (s : Schedule) (done : Finset OpId) : Finset OpId → Prop where
  | compute {id : OpId} {cost : Nat} {requires : List OpId}
      (hop : s.op? id = some ⟨.calc cost, requires⟩) (hopen : id ∉ done)
      (hready : s.Ready done id) : Completes s done (insert id done)
  | exchange {sender receiver : OpId} (hmatched : s.Matched sender receiver)
      (hsender : sender ∉ done) (hreceiver : receiver ∉ done)
      (hsend : s.Ready done sender) (hrecv : s.Ready done receiver) :
      Completes s done (insert sender (insert receiver done))

def Reachable (s : Schedule) : Finset OpId → Prop := Relation.ReflTransGen s.Completes ∅

/-- The two names are of one operation, or of the two ends of a message. -/
def Together (s : Schedule) (a b : OpId) : Prop := a = b ∨ s.Matched a b ∨ s.Matched b a

/-- Some operation at `later` waits for one at `earlier`, the ends of a message taken as one. -/
def Precedes (s : Schedule) (earlier later : OpId) : Prop :=
  ∃ dep id, s.Together earlier dep ∧ dep ∈ s.requiresOf id ∧ s.Together id later

/-- A message has completed at both of its ends or at neither. -/
def Paired (s : Schedule) (done : Finset OpId) : Prop :=
  ∀ sender receiver, s.Matched sender receiver → (sender ∈ done ↔ receiver ∈ done)

variable {s : Schedule} {done next : Finset OpId} {level : OpId → Nat}

namespace Completes

theorem paired (h : s.Completes done next) (hpaired : s.Paired done) : s.Paired next := by
  intro a b hab
  cases h with
  | @compute id cost requires hop hopen hready =>
    have ha : a ≠ id := fun he => (not_matched_of_calc hop b).1 (he ▸ hab)
    have hb : b ≠ id := fun he => (not_matched_of_calc hop a).2 (he ▸ hab)
    rw [Finset.mem_insert, Finset.mem_insert, hpaired a b hab]
    simp [ha, hb]
  | @exchange sender receiver hmatched hsender hreceiver hsend hrecv =>
    have hsame : a = sender ↔ b = receiver := by
      constructor
      · rintro rfl
        exact hab.receiver_unique hmatched
      · rintro rfl
        exact hab.sender_unique hmatched
    have ha : a ≠ receiver := hab.ne hmatched
    have hb : b ≠ sender := (hmatched.ne hab).symm
    simp only [Finset.mem_insert, hpaired a b hab, hsame, ha, hb, false_or]

/-- Every step completes an operation that was open. -/
theorem exists_new (h : s.Completes done next) :
    done ⊆ next ∧ ∃ id ∈ s.ids, id ∉ done ∧ id ∈ next := by
  cases h with
  | @compute id cost requires hop hopen hready =>
    have hid : id ∈ s.ids := by
      rw [mem_ids, hop]
      rfl
    exact ⟨Finset.subset_insert id done, id, hid, hopen, Finset.mem_insert_self id done⟩
  | @exchange sender receiver hmatched hsender hreceiver hsend hrecv =>
    have hsub : done ⊆ insert sender (insert receiver done) :=
      (Finset.subset_insert receiver done).trans (Finset.subset_insert sender _)
    exact ⟨hsub, sender, mem_ids.2 hmatched.isSome_sender, hsender, Finset.mem_insert_self _ _⟩

end Completes

theorem Reachable.paired (h : s.Reachable done) : s.Paired done := by
  induction h with
  | refl => exact fun _ _ _ => by simp
  | tail _ hstep ih => exact hstep.paired ih

theorem card_open_lt (h : s.Completes done next) : (s.ids \ next).card < (s.ids \ done).card := by
  obtain ⟨hsub, id, hid, hopen, hnext⟩ := h.exists_new
  apply Finset.card_lt_card
  refine ⟨Finset.sdiff_subset_sdiff (Finset.Subset.refl _) hsub, fun hback => ?_⟩
  have hstill := hback (Finset.mem_sdiff.2 ⟨hid, hopen⟩)
  exact (Finset.mem_sdiff.1 hstill).2 hnext

theorem wellFounded_completes (s : Schedule) :
    WellFounded fun next done => s.Completes done next := by
  have hmeasure : WellFounded fun next done : Finset OpId =>
      (s.ids \ next).card < (s.ids \ done).card :=
    InvImage.wf (fun done => (s.ids \ done).card) Nat.lt_wfRel.wf
  exact Subrelation.wf (fun h => card_open_lt h) hmeasure

namespace Leveled

theorem level_together (h : s.Leveled level) {a b : OpId} (hab : s.Together a b) :
    level a = level b := by
  rcases hab with rfl | hab | hba
  · rfl
  · exact h.agrees.of_matched hab
  · exact (h.agrees.of_matched hba).symm

theorem level_precedes (h : s.Leveled level) {earlier later : OpId}
    (hle : s.Precedes earlier later) : level earlier < level later := by
  obtain ⟨dep, id, hearlier, hdep, hlater⟩ := hle
  have hlevel := (h.mem_requiresOf hdep).2.2
  rwa [← h.level_together hearlier, h.level_together hlater] at hlevel

/-- Dependencies have no cycle, even with the two ends of every message taken as one. -/
theorem acyclic (h : s.Leveled level) (id : OpId) : ¬Relation.TransGen s.Precedes id id := by
  have hrise : ∀ a b, Relation.TransGen s.Precedes a b → level a < level b := by
    intro a b hab
    induction hab with
    | single hstep => exact h.level_precedes hstep
    | tail _ hstep ih => exact ih.trans (h.level_precedes hstep)
  exact fun hcycle => Nat.lt_irrefl _ (hrise id id hcycle)

theorem ready (h : s.Leveled level) {id : OpId}
    (hlow : ∀ other, (s.op? other).isSome = true → level other < level id → other ∈ done) :
    s.Ready done id := by
  intro dep hdep
  obtain ⟨hthere, -, hlevel⟩ := h.mem_requiresOf hdep
  exact hlow dep hthere hlevel

/-- An open operation of the least level can complete, with its other end if it has one. -/
theorem completes_least (h : s.Leveled level) (hpaired : s.Paired done) {id : OpId} {op : Op}
    (hop : s.op? id = some op) (hopen : id ∉ done)
    (hlow : ∀ other, (s.op? other).isSome = true → level other < level id → other ∈ done) :
    ∃ next, s.Completes done next := by
  -- The other end of a message lies on the same level, so it is ready as well.
  have hends : ∀ sender receiver, s.Matched sender receiver → level sender = level id →
      sender ∉ done → ∃ next, s.Completes done next := by
    intro sender receiver hmatched hlevel hsender
    have hreceiver : receiver ∉ done := fun hin => hsender ((hpaired _ _ hmatched).2 hin)
    have hsend : s.Ready done sender := h.ready (hlevel ▸ hlow)
    have hrecv : s.Ready done receiver := by
      rw [h.agrees.of_matched hmatched] at hlevel
      exact h.ready (hlevel ▸ hlow)
    exact ⟨_, .exchange hmatched hsender hreceiver hsend hrecv⟩
  obtain ⟨action, requires⟩ := op
  rcases action with ⟨destination, size, tag⟩ | ⟨source, size, tag⟩ | cost
  · obtain ⟨receiver, hmatched⟩ := h.agrees.exists_receiver hop
    exact hends id receiver hmatched rfl hopen
  · obtain ⟨sender, hmatched⟩ := h.agrees.exists_sender hop
    have hsender : sender ∉ done := fun hin => hopen ((hpaired _ _ hmatched).1 hin)
    exact hends sender id hmatched (h.agrees.of_matched hmatched) hsender
  · exact ⟨_, .compute hop hopen (h.ready hlow)⟩

theorem progress (h : s.Leveled level) (hreach : s.Reachable done) {id : OpId}
    (hid : (s.op? id).isSome = true) (hopen : id ∉ done) : ∃ next, s.Completes done next := by
  have hwf : WellFounded fun a b : OpId => level a < level b := InvImage.wf level Nat.lt_wfRel.wf
  obtain ⟨least, ⟨hleast, hleastOpen⟩, hmin⟩ :=
    hwf.has_min {id | (s.op? id).isSome = true ∧ id ∉ done} ⟨id, hid, hopen⟩
  obtain ⟨op, hop⟩ := Option.isSome_iff_exists.1 hleast
  refine h.completes_least hreach.paired hop hleastOpen fun other hother hlt => ?_
  by_contra hotherOpen
  exact hmin other ⟨hother, hotherOpen⟩ hlt

end Leveled

/-- After any calls, dependencies have no cycle with the ends of every message taken as one; every
state that an execution reaches with an operation open has a next step; no execution goes on for
ever; and one that has come to its end has completed every operation. -/
theorem deadlock_free {count : Nat} (calls : List (Call count)) :
    (∀ id, ¬Relation.TransGen (ofCalls calls).Precedes id id) ∧
    (∀ done, (ofCalls calls).Reachable done →
      ∀ id, ((ofCalls calls).op? id).isSome = true → id ∉ done →
        ∃ next, (ofCalls calls).Completes done next) ∧
    (WellFounded fun next done => (ofCalls calls).Completes done next) ∧
    ∀ done, (ofCalls calls).Reachable done → (∀ next, ¬(ofCalls calls).Completes done next) →
      ∀ id, ((ofCalls calls).op? id).isSome = true → id ∈ done := by
  obtain ⟨level, h⟩ := leveled_ofCalls calls
  refine ⟨h.acyclic, fun done hreach id hid hopen => h.progress hreach hid hopen,
    wellFounded_completes _, fun done hreach hstuck id hid => ?_⟩
  by_contra hopen
  obtain ⟨next, hstep⟩ := h.progress hreach hid hopen
  exact hstuck next hstep

end Schedule
end Collectives
