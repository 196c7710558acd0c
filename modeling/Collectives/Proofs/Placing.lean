import Collectives.Plan
import Collectives.Proofs.Growth

/-!
# Plans on a schedule

A plan whose peers are members and whose waits are for operations that exist by then is always
issued to its end, and what it appends is known beforehand: its own operations in order, with local
ranks and positions renamed. So `place` is a pure function on schedules.
-/

namespace Collectives

/-- The same action with its peer renamed. -/
def Action.mapPeer (f : Nat → Nat) : Action → Action
  | .send peer size tag => .send (f peer) size tag
  | .recv peer size tag => .recv (f peer) size tag
  | .calc cost => .calc cost

theorem Action.size?_mapPeer (f : Nat → Nat) (action : Action) :
    (action.mapPeer f).size? = action.size? := by
  cases action <;> rfl

/-- The member with the local rank `rank`; zero outside. -/
def Communicator.member (c : Communicator) (rank : Nat) : Nat := c.members.getD rank 0

/-- What a wait is for when the plan's operations lie behind `base` others of `owner`. -/
def Wait.resolve (owner base : Nat) : Wait → OpId
  | own position => ⟨owner, base + position⟩
  | existing id => id

/-- The operation that `planned` becomes in a plan that lies behind `base` others of `owner`. -/
def Planned.place (c : Communicator) (owner base : Nat) (planned : Planned) : Op :=
  (planned.waits.map (·.resolve owner base)).foldl Op.waitFor
    ⟨planned.action.mapPeer c.member, []⟩

def RankPlan.opsOn (c : Communicator) (owner base : Nat) (plan : RankPlan) : List Op :=
  plan.flatten.map (·.place c owner base)

/-- Whether a wait is for one of the first `count` operations of its plan, or for an operation that
`s` has. -/
def Wait.Refers (s : Schedule) (count : Nat) : Wait → Prop
  | own position => position < count
  | existing id => (s.op? id).isSome = true

/-- Whether the operation can be made on a communicator of `size` ranks and linked when `count`
operations of its plan exist. -/
structure Planned.Fits (s : Schedule) (size count : Nat) (planned : Planned) : Prop where
  peer : ∀ peer, planned.action.peer? = some peer → peer < size
  waits : ∀ wait ∈ planned.waits, wait.Refers s count

/-- Whether every round of a plan fits, after `count` operations of the plan. -/
def RankPlan.Fits (s : Schedule) (size : Nat) : (count : Nat) → RankPlan → Prop
  | _, [] => True
  | count, round :: rest =>
    (∀ planned ∈ round, planned.Fits s size (count + round.length)) ∧
      Fits s size (count + round.length) rest

def Communicator.Inside (c : Communicator) (s : Schedule) : Prop :=
  ∀ owner ∈ c.members, owner < s.rankCount

theorem Communicator.Inside.grow {c : Communicator} {s : Schedule} (h : c.Inside s) (owner : Nat)
    (ops : List Op) : c.Inside (s.grow owner ops) := by
  intro member hmember
  rw [Schedule.rankCount_grow]
  exact h member hmember

theorem Communicator.globalOf_eq {c : Communicator} {rank : Nat} (h : rank < c.size) :
    c.globalOf rank = .ok (c.member rank) := by
  have hr : rank < c.members.length := h
  simp [globalOf, entryAt, member, List.getElem?_eq_getElem hr]

theorem Communicator.member_mem {c : Communicator} {rank : Nat} (h : rank < c.size) :
    c.member rank ∈ c.members := by
  have hr : rank < c.members.length := h
  simp [member, List.getElem?_eq_getElem hr]

theorem Action.mapPeerM_eq {c : Communicator} {action : Action}
    (h : ∀ peer, action.peer? = some peer → peer < c.size) :
    action.mapPeerM c.globalOf = .ok (action.mapPeer c.member) := by
  rcases action with ⟨peer, size, tag⟩ | ⟨peer, size, tag⟩ | cost
  · simp [mapPeerM, mapPeer, c.globalOf_eq (h peer rfl), bind, Except.bind, pure, Except.pure]
  · simp [mapPeerM, mapPeer, c.globalOf_eq (h peer rfl), bind, Except.bind, pure, Except.pure]
  · rfl

theorem Communicator.map_member_range (c : Communicator) {count : Nat} (h : count ≤ c.size) :
    (List.range count).map c.member = c.members.take count := by
  have hlength : (c.members.take count).length = count := List.length_take_of_le h
  apply List.ext_getElem (by rw [List.length_map, List.length_range, hlength])
  intro i h₁ h₂
  have hi : i < c.members.length := by
    rw [hlength] at h₂
    exact h₂.trans_le h
  simp [member, List.getElem?_eq_getElem hi]

namespace Build

variable {c : Communicator} {s : Schedule} {rank : Nat}

/-- A planned operation as it is created, before anything is linked. -/
def bare (c : Communicator) (planned : Planned) : Op := ⟨planned.action.mapPeer c.member, []⟩

theorem runOn_create_eq (hrank : rank < c.size) (howner : c.member rank < s.rankCount)
    {action : Action} (haction : ∀ peer, action.peer? = some peer → peer < c.size) :
    (create c rank action).runOn s =
      (.ok ⟨c.member rank, (s.opsAt (c.member rank)).length⟩,
        s.grow (c.member rank) [⟨action.mapPeer c.member, []⟩]) := by
  simp [create, runOn_bind, runOn_map, c.globalOf_eq hrank, Action.mapPeerM_eq haction,
    Schedule.append_eq_grow howner]

theorem runOn_create_round (hrank : rank < c.size) (howner : c.member rank < s.rankCount)
    (round : Round)
    (hround : ∀ planned ∈ round, ∀ peer, planned.action.peer? = some peer → peer < c.size) :
    Build.runOn (round.mapM fun planned => create c rank planned.action) s =
      (.ok (Schedule.names (c.member rank) (s.opsAt (c.member rank)).length round.length),
        s.grow (c.member rank) (round.map (bare c))) := by
  induction round generalizing s with
  | nil => simp
  | cons planned round ih =>
    have hgrown : c.member rank < (s.grow (c.member rank) [bare c planned]).rankCount := by
      simpa using howner
    have hrest := ih hgrown fun p hp => hround p (List.mem_cons_of_mem _ hp)
    rw [Schedule.opsAt_grow_self howner, Schedule.grow_grow] at hrest
    rw [List.mapM_cons, runOn_bind, runOn_create_eq hrank howner (hround planned (by simp))]
    simp only [runOn_bind]
    rw [show (⟨planned.action.mapPeer c.member, []⟩ : Op) = bare c planned from rfl, hrest]
    simp [Schedule.names_succ]

theorem target_names {owner base count : Nat} {wait : Wait} (h : wait.Refers s count) :
    wait.target (Schedule.names owner base count) = .ok (wait.resolve owner base) := by
  cases wait with
  | own position => simp [Wait.target, entryAt, Schedule.names_getElem? h, Wait.resolve]
  | existing id => rfl

theorem isSome_resolve {owner : Nat} (howner : owner < s.rankCount) {ops : List Op} {wait : Wait}
    (h : wait.Refers s ops.length) :
    ((s.grow owner ops).op? (wait.resolve owner (s.opsAt owner).length)).isSome = true := by
  cases wait with
  | own position =>
    have hp : position < ops.length := h
    simpa [Wait.resolve, Schedule.isSome_op?, Schedule.opsAt_grow_self howner] using hp
  | existing id => exact Schedule.isSome_op?_grow h owner ops

theorem runOn_link {id : OpId} (issued : List OpId) (resolve : Wait → OpId) (waits : List Wait)
    (hid : (s.op? id).isSome = true)
    (htarget : ∀ wait ∈ waits, wait.target issued = .ok (resolve wait))
    (hthere : ∀ wait ∈ waits, (s.op? (resolve wait)).isSome = true) :
    Build.runOn (waits.forM fun wait => do require id (← demand (wait.target issued))) s =
      (.ok (), s.update id fun op => (waits.map resolve).foldl Op.waitFor op) := by
  induction waits generalizing s with
  | nil =>
    have hsame : s.update id (fun op => op) = s := Schedule.update_id s id
    simp [hsame]
  | cons wait waits ih =>
    have hreq := Schedule.require_eq_update hid (hthere wait (by simp))
    have hrest := ih (s := s.update id (·.waitFor (resolve wait))) (by simpa using hid)
      (fun w hw => htarget w (by simp [hw]))
      (fun w hw => by simpa using hthere w (by simp [hw]))
    rw [Schedule.update_update] at hrest
    simp only [List.forM_eq_forM, List.forM_cons, runOn_bind, htarget wait (by simp),
      runOn_demand_ok, runOn_require, hreq]
    simpa [Function.comp_def] using hrest

/-- Linking turns the bare operations of a round into the placed ones. -/
theorem runOn_link_round {owner count : Nat} (howner : owner < s.rankCount) (front : List Op)
    (round : Round) (hcount : front.length + round.length = count)
    (hround : ∀ planned ∈ round, ∀ wait ∈ planned.waits, wait.Refers s count) :
    Build.runOn
        (((Schedule.names owner ((s.opsAt owner).length + front.length) round.length).zip
          round).forM fun (id, planned) => planned.waits.forM fun wait => do
            require id (← demand
              (wait.target (Schedule.names owner (s.opsAt owner).length count))))
        (s.grow owner (front ++ round.map (bare c))) =
      (.ok (), s.grow owner
        (front ++ round.map (·.place c owner (s.opsAt owner).length))) := by
  induction round generalizing front with
  | nil => simp
  | cons planned round ih =>
    set base := (s.opsAt owner).length with hbase
    have hlen : (front ++ (planned :: round).map (bare c)).length = count := by
      simpa using hcount
    have hid : ((s.grow owner (front ++ (planned :: round).map (bare c))).op?
        ⟨owner, base + front.length⟩).isSome = true := by
      simp [Schedule.isSome_op?, Schedule.opsAt_grow_self howner, hbase]
    have hlink := runOn_link (Schedule.names owner base count) (·.resolve owner base)
      planned.waits hid
      (fun w hw => target_names (hround planned (by simp) w hw))
      (fun w hw => isSome_resolve howner (hlen ▸ hround planned (by simp) w hw))
    have hrest := ih (front ++ [planned.place c owner base])
      (by simp only [List.length_append, List.length_cons, List.length_nil] at hcount ⊢; omega)
      fun p hp => hround p (by simp [hp])
    have hupdate := Schedule.update_grow s owner front (bare c planned) (round.map (bare c))
      fun op => (planned.waits.map (·.resolve owner base)).foldl Op.waitFor op
    rw [← hbase] at hupdate
    simp only [List.map_cons] at hlink
    rw [hupdate] at hlink
    simp only [List.length_append, List.length_singleton, ← Nat.add_assoc, List.append_assoc,
      List.cons_append, List.nil_append] at hrest
    simp only [List.forM_eq_forM] at hlink hrest ⊢
    simp only [List.length_cons, Schedule.names_succ, List.zip_cons_cons, List.forM_cons,
      runOn_bind, List.map_cons, hlink]
    exact hrest

theorem runOn_issueRound (hrank : rank < c.size) (howner : c.member rank < s.rankCount)
    (front : List Op) (round : Round)
    (hround : ∀ planned ∈ round, planned.Fits s c.size (front.length + round.length)) :
    (issueRound c rank
        (Schedule.names (c.member rank) (s.opsAt (c.member rank)).length front.length)
        round).runOn (s.grow (c.member rank) front) =
      (.ok (Schedule.names (c.member rank) (s.opsAt (c.member rank)).length
          (front.length + round.length)),
        s.grow (c.member rank)
          (front ++ round.map (·.place c (c.member rank) (s.opsAt (c.member rank)).length))) := by
  have hgrown : c.member rank < (s.grow (c.member rank) front).rankCount := by simpa using howner
  have hcreate := runOn_create_round hrank hgrown round fun p hp => (hround p hp).peer
  have hlink := runOn_link_round (c := c) howner front round rfl fun p hp => (hround p hp).waits
  rw [Schedule.opsAt_grow_self howner, Schedule.grow_grow, List.length_append] at hcreate
  simp only [issueRound, runOn_bind, hcreate, Schedule.names_append, hlink, runOn_pure]

theorem runOn_issue_from (hrank : rank < c.size) (howner : c.member rank < s.rankCount)
    (front : List Op) (plan : RankPlan) (hplan : plan.Fits s c.size front.length) :
    Build.runOn (plan.foldlM (issueRound c rank)
        (Schedule.names (c.member rank) (s.opsAt (c.member rank)).length front.length))
        (s.grow (c.member rank) front) =
      (.ok (Schedule.names (c.member rank) (s.opsAt (c.member rank)).length
          (front.length + plan.flatten.length)),
        s.grow (c.member rank)
          (front ++ plan.opsOn c (c.member rank) (s.opsAt (c.member rank)).length)) := by
  induction plan generalizing front with
  | nil => simp [RankPlan.opsOn]
  | cons round plan ih =>
    have hround := runOn_issueRound hrank howner front round hplan.1
    have hrest := ih
      (front ++ round.map (·.place c (c.member rank) (s.opsAt (c.member rank)).length))
      (by simpa using hplan.2)
    simp only [List.length_append, List.length_map, Nat.add_assoc] at hrest
    simp only [List.foldlM_cons, runOn_bind, hround, hrest]
    simp [RankPlan.opsOn]

/-- A plan that fits is issued to its end and becomes its operations. -/
theorem runOn_issue (hrank : rank < c.size) (howner : c.member rank < s.rankCount)
    (plan : RankPlan) (hplan : plan.Fits s c.size 0) :
    (issue c rank plan).runOn s =
      (.ok (Schedule.names (c.member rank) (s.opsAt (c.member rank)).length plan.flatten.length),
        s.grow (c.member rank)
          (plan.opsOn c (c.member rank) (s.opsAt (c.member rank)).length)) := by
  simpa [issue] using runOn_issue_from hrank howner [] plan hplan

end Build

theorem Wait.Refers.grow {s : Schedule} {count : Nat} {wait : Wait} (h : wait.Refers s count)
    (owner : Nat) (ops : List Op) : wait.Refers (s.grow owner ops) count := by
  cases wait with
  | own position => exact h
  | existing id => exact Schedule.isSome_op?_grow h owner ops

theorem RankPlan.Fits.grow {s : Schedule} {size count : Nat} {plan : RankPlan}
    (h : plan.Fits s size count) (owner : Nat) (ops : List Op) :
    plan.Fits (s.grow owner ops) size count := by
  induction plan generalizing count with
  | nil => trivial
  | cons round plan ih =>
    refine ⟨fun planned hp => ?_, ih h.2⟩
    exact ⟨(h.1 planned hp).peer, fun wait hw => ((h.1 planned hp).waits wait hw).grow owner ops⟩

namespace Schedule

/-- The schedule with the operations of a plan behind those of its rank. -/
def host (s : Schedule) (c : Communicator) (plans : Nat → RankPlan) (rank : Nat) : Schedule :=
  s.grow (c.member rank) ((plans rank).opsOn c (c.member rank) (s.opsAt (c.member rank)).length)

/-- The schedule with the plans of all ranks of `c`, placed in rank order. -/
def placed (s : Schedule) (c : Communicator) (plans : Nat → RankPlan) : Schedule :=
  (List.range c.size).foldl (host · c plans) s

end Schedule

namespace Build

theorem runOn_discard {α : Type} (work : Build α) (s : Schedule) :
    Build.runOn (discard work) s =
      match work.runOn s with
      | (.ok _, made) => (.ok (), made)
      | (.error failure, made) => (.error failure, made) :=
  runOn_map (fun _ => ()) work s

theorem runOn_place_ranks {c : Communicator} {plans : Nat → RankPlan} (ranks : List Nat)
    (s : Schedule) (hranks : ∀ rank ∈ ranks, rank < c.size) (hinside : c.Inside s)
    (hfits : ∀ rank ∈ ranks, (plans rank).Fits s c.size 0) :
    Build.runOn (ranks.forM fun rank => do discard (issue c rank (plans rank))) s =
      (.ok (), ranks.foldl (Schedule.host · c plans) s) := by
  induction ranks generalizing s with
  | nil => simp
  | cons rank ranks ih =>
    have howner := hinside _ (c.member_mem (hranks rank (by simp)))
    have hissue := runOn_issue (hranks rank (by simp)) howner _ (hfits rank (by simp))
    have hrest := ih (s.host c plans rank) (fun r hr => hranks r (by simp [hr]))
      (hinside.grow _ _)
      (fun r hr => (hfits r (by simp [hr])).grow _ _)
    simp only [List.forM_eq_forM] at hrest ⊢
    simp only [List.forM_cons, runOn_bind, runOn_discard, hissue]
    exact hrest

/-- Placing plans that fit always succeeds. -/
theorem runOn_place {c : Communicator} {plans : Nat → RankPlan} {s : Schedule}
    (hinside : c.Inside s) (hfits : ∀ rank < c.size, (plans rank).Fits s c.size 0) :
    (place c plans).runOn s = (.ok (), s.placed c plans) :=
  runOn_place_ranks (List.range c.size) s (fun _ h => List.mem_range.1 h) hinside
    fun rank h => hfits rank (List.mem_range.1 h)

/-- A pattern is refused before anything is created, or all its plans are placed. -/
theorem runOn_run {c : Communicator} {pattern : Pattern} {s : Schedule} (hinside : c.Inside s)
    (hfits : ∀ plans, pattern c.size = .ok plans →
      ∀ rank < c.size, (plans rank).Fits s c.size 0) :
    (run c pattern).runOn s =
      match pattern c.size with
      | .ok plans => (.ok (), s.placed c plans)
      | .error error => (.error (.refused error), s) := by
  cases h : pattern c.size with
  | ok plans => simp [run, runOn_bind, h, runOn_place hinside (hfits plans h)]
  | error error => simp [run, runOn_bind, h]

end Build

namespace Schedule

@[simp] theorem rankCount_host (s : Schedule) (c : Communicator) (plans : Nat → RankPlan)
    (rank : Nat) : (s.host c plans rank).rankCount = s.rankCount := by
  simp [host]

theorem rankCount_hosts (c : Communicator) (plans : Nat → RankPlan) (ranks : List Nat)
    (s : Schedule) : (ranks.foldl (host · c plans) s).rankCount = s.rankCount := by
  induction ranks generalizing s with
  | nil => rfl
  | cons rank ranks ih => rw [List.foldl_cons, ih, rankCount_host]

@[simp] theorem rankCount_placed (s : Schedule) (c : Communicator) (plans : Nat → RankPlan) :
    (s.placed c plans).rankCount = s.rankCount :=
  rankCount_hosts c plans _ s

private theorem opsAt_hosts_of_notMem (c : Communicator) (plans : Nat → RankPlan) {owner : Nat}
    (ranks : List Nat) (s : Schedule) (h : ∀ rank ∈ ranks, owner ≠ c.member rank) :
    (ranks.foldl (host · c plans) s).opsAt owner = s.opsAt owner := by
  induction ranks generalizing s with
  | nil => rfl
  | cons rank ranks ih =>
    rw [List.foldl_cons, ih _ fun r hr => h r (by simp [hr]), host,
      opsAt_grow_of_ne s (h rank (by simp))]

theorem opsAt_placed_of_notMem {c : Communicator} {owner : Nat} (h : owner ∉ c.members)
    (s : Schedule) (plans : Nat → RankPlan) : (s.placed c plans).opsAt owner = s.opsAt owner := by
  apply opsAt_hosts_of_notMem
  rintro rank hrank rfl
  exact h (c.member_mem (List.mem_range.1 hrank))

private theorem opsAt_hosts {c : Communicator} (plans : Nat → RankPlan) {rank : Nat}
    (ranks : List Nat) (hnodup : (ranks.map c.member).Nodup) (hrank : rank ∈ ranks) (s : Schedule)
    (howner : c.member rank < s.rankCount) :
    (ranks.foldl (host · c plans) s).opsAt (c.member rank) =
      s.opsAt (c.member rank) ++
        (plans rank).opsOn c (c.member rank) (s.opsAt (c.member rank)).length := by
  induction ranks generalizing s with
  | nil => simp at hrank
  | cons first ranks ih =>
    rw [List.map_cons, List.nodup_cons] at hnodup
    rw [List.foldl_cons]
    rcases List.mem_cons.1 hrank with rfl | hlater
    · rw [opsAt_hosts_of_notMem, host, opsAt_grow_self howner]
      exact fun r hr he => hnodup.1 (he ▸ List.mem_map_of_mem hr)
    · have hne : c.member rank ≠ c.member first :=
        fun he => hnodup.1 (he ▸ List.mem_map_of_mem hlater)
      rw [ih hnodup.2 hlater _ (by simpa using howner), host, opsAt_grow_of_ne s hne]

/-- Operations that exist stay as they are when plans are placed. -/
theorem op?_hosts {c : Communicator} {plans : Nat → RankPlan} {s : Schedule} {id : OpId} {op : Op}
    (h : s.op? id = some op) (ranks : List Nat) :
    (ranks.foldl (host · c plans) s).op? id = some op := by
  induction ranks generalizing s with
  | nil => exact h
  | cons rank ranks ih => exact ih (op?_grow h _ _)

theorem op?_hosts_cases {c : Communicator} {plans : Nat → RankPlan} {s : Schedule} {id : OpId}
    {op : Op} (ranks : List Nat) (h : (ranks.foldl (host · c plans) s).op? id = some op) :
    s.op? id = some op ∨
      ∃ rank ∈ ranks, ∃ base, op ∈ (plans rank).opsOn c (c.member rank) base := by
  induction ranks generalizing s with
  | nil => exact Or.inl h
  | cons rank ranks ih =>
    rcases ih h with hhost | ⟨other, hother, hplanned⟩
    · exact (op?_grow_cases hhost).imp_right fun hnew => ⟨rank, List.mem_cons_self, _, hnew⟩
    · exact Or.inr ⟨other, List.mem_cons_of_mem _ hother, hplanned⟩

/-- Every operation of a schedule on which plans were placed was there before or stands in one of
these plans. -/
theorem op?_placed_cases {c : Communicator} {plans : Nat → RankPlan} {s : Schedule} {id : OpId}
    {op : Op} (h : (s.placed c plans).op? id = some op) :
    s.op? id = some op ∨
      ∃ rank < c.size, ∃ base, op ∈ (plans rank).opsOn c (c.member rank) base := by
  simpa only [List.mem_range] using op?_hosts_cases (List.range c.size) h

theorem length_opsAt_hosts {c : Communicator} {plans : Nat → RankPlan} {count : Nat}
    (hcount : ∀ rank, (plans rank).flatten.length = count) (owner : Nat) (ranks : List Nat)
    (hranks : ∀ rank ∈ ranks, rank < c.size) {s : Schedule} (hinside : c.Inside s) :
    ((ranks.foldl (host · c plans) s).opsAt owner).length =
      (s.opsAt owner).length + (ranks.map c.member).count owner * count := by
  induction ranks generalizing s with
  | nil => simp
  | cons rank ranks ih =>
    have hgrown : c.Inside (s.host c plans rank) := hinside.grow _ _
    have hmember := hinside _ (c.member_mem (hranks rank (by simp)))
    rw [List.foldl_cons, ih (fun r hr => hranks r (by simp [hr])) hgrown, host, List.map_cons]
    by_cases howner : c.member rank = owner
    · subst howner
      rw [opsAt_grow_self hmember, List.count_cons_self, List.length_append, RankPlan.opsOn,
        List.length_map, hcount, Nat.succ_mul, Nat.add_right_comm, Nat.add_assoc]
    · rw [opsAt_grow_of_ne s (Ne.symm howner), List.count_cons_of_ne howner]

/-- Where the operations of the local rank `rank` begin when each local rank is given `count`:
behind those that its member had and those of lower local ranks of the same member. -/
def baseOf (s : Schedule) (c : Communicator) (count rank : Nat) : Nat :=
  (s.opsAt (c.member rank)).length + (c.members.take rank).count (c.member rank) * count

/-- A planned operation of a local rank stands at its position behind the base of that rank. -/
theorem op?_placed_at {c : Communicator} {plans : Nat → RankPlan} {s : Schedule} {count : Nat}
    (hcount : ∀ rank, (plans rank).flatten.length = count) (hinside : c.Inside s) {rank : Nat}
    (hrank : rank < c.size) {position : Nat} {planned : Planned}
    (hget : (plans rank).flatten[position]? = some planned) :
    (s.placed c plans).op? ⟨c.member rank, s.baseOf c count rank + position⟩ =
      some (planned.place c (c.member rank) (s.baseOf c count rank)) := by
  obtain ⟨more, hmore⟩ := Nat.exists_eq_add_of_lt hrank
  have hbelow : ∀ r ∈ List.range rank, r < c.size := fun r hr => (List.mem_range.1 hr).trans hrank
  have hlength := length_opsAt_hosts hcount (c.member rank) (List.range rank) hbelow hinside
  rw [c.map_member_range hrank.le] at hlength
  rw [placed, hmore, Nat.add_right_comm, List.range_add, List.foldl_append, List.range_succ,
    List.foldl_append]
  apply op?_hosts
  rw [List.foldl_cons, List.foldl_nil, op?_eq, host, opsAt_grow_self, hlength, ← baseOf,
    List.getElem?_append_right (hlength ▸ Nat.le_add_right _ _), hlength, ← baseOf,
    Nat.add_sub_cancel_left, RankPlan.opsOn, List.getElem?_map, hget]
  · rfl
  · rw [rankCount_hosts]
    exact hinside _ (c.member_mem hrank)

/-- A member has its plan's operations behind those it had. -/
theorem opsAt_placed {c : Communicator} (hnodup : c.members.Nodup) {s : Schedule}
    (hinside : c.Inside s) (plans : Nat → RankPlan) {rank : Nat} (hrank : rank < c.size) :
    (s.placed c plans).opsAt (c.member rank) =
      s.opsAt (c.member rank) ++
        (plans rank).opsOn c (c.member rank) (s.opsAt (c.member rank)).length := by
  apply opsAt_hosts plans _ ?_ (List.mem_range.2 hrank) s (hinside _ (c.member_mem hrank))
  rwa [c.map_member_range (Nat.le_refl _), Communicator.size, List.take_length]

end Schedule
end Collectives
