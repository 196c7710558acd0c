import Collectives.Proofs.Channels

/-!
# Levels

A level of operations that rises along dependencies and is the same at both ends of a message. Plans
that have one are coherent, and placing coherent plans keeps a schedule leveled, whatever was there
before: the new operations are matched and linked among themselves.
-/

namespace Collectives

namespace RankPlan

/-- The sizes and levels of the operations of a plan that `size?` selects, in order. -/
def ends (size? : Action → Option Nat) (level : Nat → Nat) (plan : RankPlan) : List (Nat × Nat) :=
  plan.flatten.zipIdx.filterMap fun (planned, position) =>
    (size? planned.action).map (·, level position)

/-- The ends that a selection finds, when all that it finds have one level. -/
theorem ends_eq_map (plan : RankPlan) (size? : Action → Option Nat) (level : Nat → Nat)
    (value : Nat)
    (h : ∀ position planned, plan.flatten[position]? = some planned →
      (size? planned.action).isSome = true → level position = value) :
    plan.ends size? level =
      (plan.flatten.filterMap fun planned => size? planned.action).map (·, value) := by
  rw [ends, List.map_filterMap]
  conv_rhs => rw [← List.zipIdx_map_fst 0 plan.flatten, List.filterMap_map]
  apply List.filterMap_congr
  rintro ⟨planned, position⟩ hmem
  have hget := List.mem_zipIdx_iff_getElem?.1 hmem
  cases hsize : size? planned.action with
  | none => simp [hsize]
  | some n => simp [hsize, h position planned hget (by simp [hsize])]

/-- Plans for the ranks below `size` that can be placed, wait only for lower levels of their own
rank, send nothing to themselves, and meet the plans of their peers: sends and receives agree in
order, size and level. The level is one of local ranks and positions. -/
structure Coherent (size : Nat) (plans : Nat → RankPlan) (level : Nat → Nat → Nat) : Prop where
  fits : ∀ rank < size, ∀ s, (plans rank).Fits s size 0
  rising : ∀ rank < size, ∀ position planned, (plans rank).flatten[position]? = some planned →
    ∀ wait ∈ planned.waits, ∃ earlier < (plans rank).flatten.length,
      wait = .own earlier ∧ level rank earlier < level rank position
  peers : ∀ rank < size, ∀ planned ∈ (plans rank).flatten, ∀ peer,
    planned.action.peer? = some peer → peer < size ∧ peer ≠ rank
  mirrored : ∀ a < size, ∀ b < size, ∀ tag,
    (plans a).ends (Action.sentTo? b tag) (level a) =
      (plans b).ends (Action.receivedFrom? a tag) (level b)

end RankPlan

/-- A schedule without messages to oneself, whose dependencies exist, stay on their rank and have
lower levels, and whose channels agree in sizes and levels. -/
structure Schedule.Leveled (s : Schedule) (level : OpId → Nat) : Prop where
  apart : ∀ rank, ∀ op ∈ s.opsAt rank, op.action.peer? ≠ some rank
  rising : ∀ id op, s.op? id = some op → ∀ dep ∈ op.requires,
    (s.op? dep).isSome = true ∧ dep.rank = id.rank ∧ level dep < level id
  agrees : s.Agrees level

namespace Schedule

theorem Leveled.mem_requiresOf {s : Schedule} {level : OpId → Nat} (h : s.Leveled level)
    {id dep : OpId} (hdep : dep ∈ s.requiresOf id) :
    (s.op? dep).isSome = true ∧ dep.rank = id.rank ∧ level dep < level id := by
  cases hop : s.op? id with
  | none => simp [requiresOf, hop] at hdep
  | some op =>
    rw [requiresOf_eq hop] at hdep
    exact h.rising id op hop dep hdep

@[simp] theorem opsAt_idle (count rank : Nat) : (idle count).opsAt rank = [] := by
  rw [opsAt, idle, List.getD_eq_getElem?_getD, List.getElem?_replicate]
  split <;> rfl

theorem op?_idle (count : Nat) (id : OpId) : (idle count).op? id = none := by
  rw [op?_eq, opsAt_idle]
  rfl

theorem leveled_idle (count : Nat) : (idle count).Leveled fun _ => 0 where
  apart := by
    intro rank op hop
    rw [opsAt_idle] at hop
    cases hop
  rising := by
    intro id op hop
    rw [op?_idle] at hop
    cases hop
  agrees := by
    intro source destination tag
    rw [outgoing, incoming, opsAt_idle, opsAt_idle]
    rfl

end Schedule

section Members

variable {c : Communicator}

theorem Communicator.idxOf_member (h : c.members.Nodup) {rank : Nat} (hrank : rank < c.size) :
    c.members.idxOf (c.member rank) = rank := by
  have hr : rank < c.members.length := hrank
  have hget : c.member rank = c.members[rank] := by
    simp [member, List.getElem?_eq_getElem hr]
  rw [hget, h.idxOf_getElem rank hr]

theorem Communicator.member_inj (h : c.members.Nodup) {a b : Nat} (ha : a < c.size)
    (hb : b < c.size) : c.member a = c.member b ↔ a = b := by
  constructor
  · intro hab
    rw [← c.idxOf_member h ha, hab, c.idxOf_member h hb]
  · rintro rfl
    rfl

theorem Communicator.exists_member {owner : Nat} (h : owner ∈ c.members) :
    ∃ rank < c.size, c.member rank = owner := by
  obtain ⟨rank, hrank, rfl⟩ := List.mem_iff_getElem.1 h
  exact ⟨rank, hrank, by simp [member, List.getElem?_eq_getElem hrank]⟩

@[simp] theorem Action.peer?_mapPeer (f : Nat → Nat) (action : Action) :
    (action.mapPeer f).peer? = action.peer?.map f := by
  cases action <;> rfl

theorem Action.sentTo?_mapPeer_member (h : c.members.Nodup) {b : Nat} (hb : b < c.size) (tag : Tag)
    {action : Action} (hpeer : ∀ peer, action.peer? = some peer → peer < c.size) :
    (action.mapPeer c.member).sentTo? (c.member b) tag = action.sentTo? b tag := by
  rcases action with ⟨peer, size, label⟩ | _ | _
  · simp [mapPeer, sentTo?, c.member_inj h (hpeer peer rfl) hb]
  · rfl
  · rfl

theorem Action.receivedFrom?_mapPeer_member (h : c.members.Nodup) {b : Nat} (hb : b < c.size)
    (tag : Tag) {action : Action} (hpeer : ∀ peer, action.peer? = some peer → peer < c.size) :
    (action.mapPeer c.member).receivedFrom? (c.member b) tag = action.receivedFrom? b tag := by
  rcases action with _ | ⟨peer, size, label⟩ | _
  · rfl
  · simp [mapPeer, receivedFrom?, c.member_inj h (hpeer peer rfl) hb]
  · rfl

theorem Action.sentTo?_mapPeer_of_notMem {owner : Nat} (h : owner ∉ c.members) (tag : Tag)
    {action : Action} (hpeer : ∀ peer, action.peer? = some peer → peer < c.size) :
    (action.mapPeer c.member).sentTo? owner tag = none := by
  rcases action with ⟨peer, size, label⟩ | _ | _
  · have hne : c.member peer ≠ owner := fun he => h (he ▸ c.member_mem (hpeer peer rfl))
    simp [mapPeer, sentTo?, hne]
  · rfl
  · rfl

theorem Action.receivedFrom?_mapPeer_of_notMem {owner : Nat} (h : owner ∉ c.members) (tag : Tag)
    {action : Action} (hpeer : ∀ peer, action.peer? = some peer → peer < c.size) :
    (action.mapPeer c.member).receivedFrom? owner tag = none := by
  rcases action with _ | ⟨peer, size, label⟩ | _
  · rfl
  · have hne : c.member peer ≠ owner := fun he => h (he ▸ c.member_mem (hpeer peer rfl))
    simp [mapPeer, receivedFrom?, hne]
  · rfl

end Members

theorem foldl_waitFor (deps : List OpId) (op : Op) :
    (deps.foldl Op.waitFor op).action = op.action ∧
      ∀ dep, dep ∈ (deps.foldl Op.waitFor op).requires ↔ dep ∈ op.requires ∨ dep ∈ deps := by
  induction deps generalizing op with
  | nil => simp
  | cons first deps ih =>
    obtain ⟨haction, hmem⟩ := ih (op.waitFor first)
    constructor
    · rw [List.foldl_cons, haction]
      unfold Op.waitFor
      split <;> rfl
    · intro dep
      rw [List.foldl_cons, hmem]
      unfold Op.waitFor
      split
      case isTrue hin =>
        simp only [List.mem_cons]
        constructor
        · tauto
        · rintro (h | rfl | h)
          · exact Or.inl h
          · exact Or.inl hin
          · exact Or.inr h
      case isFalse =>
        simp only [List.mem_append, List.mem_cons, List.not_mem_nil, or_false]
        tauto

/-- Waiting for new operations appends them. -/
theorem requires_foldl_waitFor {deps : List OpId} {op : Op} (h : (op.requires ++ deps).Nodup) :
    (deps.foldl Op.waitFor op).requires = op.requires ++ deps := by
  induction deps generalizing op with
  | nil => simp
  | cons first deps ih =>
    have hnew : first ∉ op.requires := by
      intro hmem
      exact (List.nodup_append.1 h).2.2 first hmem first (by simp) rfl
    have hwait : op.waitFor first = { op with requires := op.requires ++ [first] } := if_neg hnew
    rw [List.foldl_cons, hwait, ih (by simpa using h)]
    simp

@[simp] theorem Planned.action_place (c : Communicator) (owner base : Nat) (planned : Planned) :
    (planned.place c owner base).action = planned.action.mapPeer c.member :=
  (foldl_waitFor _ _).1

theorem Planned.mem_requires_place {c : Communicator} {owner base : Nat} {planned : Planned}
    {dep : OpId} :
    dep ∈ (planned.place c owner base).requires ↔
      ∃ wait ∈ planned.waits, wait.resolve owner base = dep := by
  rw [place, (foldl_waitFor _ _).2]
  simp

/-- An operation that waits for nothing twice requires what it waits for, in this order. -/
theorem Planned.place_eq {c : Communicator} {owner base : Nat} {planned : Planned}
    (h : (planned.waits.map (·.resolve owner base)).Nodup) :
    planned.place c owner base =
      ⟨planned.action.mapPeer c.member, planned.waits.map (·.resolve owner base)⟩ := by
  have haction := planned.action_place c owner base
  have hrequires : (planned.place c owner base).requires =
      planned.waits.map (·.resolve owner base) :=
    requires_foldl_waitFor (by simpa using h)
  generalize planned.place c owner base = placed at haction hrequires
  cases placed
  rw [← haction, ← hrequires]

/-- The stamped ends that a placed plan adds are those of the plan. -/
theorem map_endsFrom_opsOn {c : Communicator} {owner base : Nat} {plan : RankPlan}
    {size? planned? : Action → Option Nat} {stamp : OpId → Nat} {level : Nat → Nat}
    (hsize : ∀ planned ∈ plan.flatten,
      size? (planned.action.mapPeer c.member) = planned? planned.action)
    (hstamp : ∀ position < plan.flatten.length, stamp ⟨owner, base + position⟩ = level position) :
    (endsFrom size? owner base (plan.opsOn c owner base)).map (fun e => (e.2, stamp e.1)) =
      plan.ends planned? level := by
  rw [endsFrom, RankPlan.opsOn, List.zipIdx_map, List.zipIdx_eq_map_add, RankPlan.ends,
    List.map_map, List.filterMap_map, List.map_filterMap]
  apply List.filterMap_congr
  rintro ⟨planned, position⟩ hmem
  have hget := List.mem_zipIdx_iff_getElem?.1 hmem
  have hlt := (List.getElem?_eq_some_iff.1 hget).1
  have hs := hsize planned (List.mem_of_getElem? hget)
  simp only [Function.comp_apply, Prod.map_apply, id_eq, Planned.action_place, hs,
    Option.map_map, Function.comp_def, hstamp position hlt]

namespace Schedule

def levelAfter (s : Schedule) (c : Communicator) (level : OpId → Nat)
    (planLevel : Nat → Nat → Nat) (id : OpId) : Nat :=
  if id.index < (s.opsAt id.rank).length then level id
  else planLevel (c.members.idxOf id.rank) (id.index - (s.opsAt id.rank).length)

variable {s : Schedule} {c : Communicator} {plans : Nat → RankPlan} {level : OpId → Nat}
  {planLevel : Nat → Nat → Nat}

theorem levelAfter_old {id : OpId} (h : (s.op? id).isSome = true) :
    s.levelAfter c level planLevel id = level id := by
  rw [levelAfter, if_pos ((s.isSome_op? id).1 h)]

theorem levelAfter_new (hnodup : c.members.Nodup) {rank : Nat} (hrank : rank < c.size)
    (position : Nat) :
    s.levelAfter c level planLevel ⟨c.member rank, (s.opsAt (c.member rank)).length + position⟩ =
      planLevel rank position := by
  rw [levelAfter, if_neg (by simp), c.idxOf_member hnodup hrank, Nat.add_sub_cancel_left]

/-- An operation after placing plans is an old one or comes from a plan. -/
theorem op?_placed (hnodup : c.members.Nodup) (hinside : c.Inside s) {id : OpId} {op : Op}
    (h : (s.placed c plans).op? id = some op) :
    s.op? id = some op ∨
      ∃ rank < c.size, ∃ position planned, (plans rank).flatten[position]? = some planned ∧
        id = ⟨c.member rank, (s.opsAt (c.member rank)).length + position⟩ ∧
        op = planned.place c (c.member rank) (s.opsAt (c.member rank)).length := by
  rw [op?_eq] at h
  by_cases hmem : id.rank ∈ c.members
  · obtain ⟨rank, hrank, howner⟩ := c.exists_member hmem
    rw [← howner, opsAt_placed hnodup hinside plans hrank] at h
    by_cases hold : id.index < (s.opsAt (c.member rank)).length
    · rw [List.getElem?_append_left hold, howner, ← op?_eq] at h
      exact Or.inl h
    · rw [List.getElem?_append_right (Nat.le_of_not_lt hold), RankPlan.opsOn, List.getElem?_map,
        Option.map_eq_some_iff] at h
      obtain ⟨planned, hplanned, rfl⟩ := h
      refine Or.inr ⟨rank, hrank, _, planned, hplanned, ?_, rfl⟩
      cases id
      simp only [OpId.mk.injEq] at howner hold ⊢
      exact ⟨howner.symm, by omega⟩
  · rw [opsAt_placed_of_notMem hmem, ← op?_eq] at h
    exact Or.inl h

theorem isSome_op?_placed (hnodup : c.members.Nodup) (hinside : c.Inside s) {id : OpId}
    (h : (s.op? id).isSome = true) : ((s.placed c plans).op? id).isSome = true := by
  rw [isSome_op?] at h ⊢
  by_cases hmem : id.rank ∈ c.members
  · obtain ⟨rank, hrank, howner⟩ := c.exists_member hmem
    rw [← howner] at h ⊢
    rw [opsAt_placed hnodup hinside plans hrank, List.length_append]
    omega
  · rwa [opsAt_placed_of_notMem hmem]

def newEnds (s : Schedule) (c : Communicator) (plans : Nat → RankPlan)
    (size? : Action → Option Nat) (owner : Nat) : List (OpId × Nat) :=
  if owner ∈ c.members then
    endsFrom size? owner (s.opsAt owner).length
      ((plans (c.members.idxOf owner)).opsOn c owner (s.opsAt owner).length)
  else []

theorem endsFrom_placed (hnodup : c.members.Nodup) (hinside : c.Inside s)
    (size? : Action → Option Nat) (owner : Nat) :
    endsFrom size? owner 0 ((s.placed c plans).opsAt owner) =
      endsFrom size? owner 0 (s.opsAt owner) ++ s.newEnds c plans size? owner := by
  by_cases hmem : owner ∈ c.members
  · obtain ⟨rank, hrank, rfl⟩ := c.exists_member hmem
    rw [opsAt_placed hnodup hinside plans hrank, endsFrom_append, newEnds, if_pos hmem,
      c.idxOf_member hnodup hrank, Nat.zero_add]
  · rw [opsAt_placed_of_notMem hmem, newEnds, if_neg hmem, List.append_nil]

/-- The new ends of a member, with their levels, are the ends of its plan. -/
theorem map_newEnds (hnodup : c.members.Nodup) {size? planned? : Action → Option Nat} {rank : Nat}
    (hrank : rank < c.size)
    (hsize : ∀ planned ∈ (plans rank).flatten,
      size? (planned.action.mapPeer c.member) = planned? planned.action) :
    (s.newEnds c plans size? (c.member rank)).map
        (fun e => (e.2, s.levelAfter c level planLevel e.1)) =
      (plans rank).ends planned? (planLevel rank) := by
  rw [newEnds, if_pos (c.member_mem hrank), c.idxOf_member hnodup hrank]
  exact map_endsFrom_opsOn hsize fun position _ => levelAfter_new hnodup hrank position

theorem newEnds_agree (hc : RankPlan.Coherent c.size plans planLevel) (hnodup : c.members.Nodup)
    (source destination : Nat) (tag : Tag) :
    (s.newEnds c plans (Action.sentTo? destination tag) source).map
        (fun e => (e.2, s.levelAfter c level planLevel e.1)) =
      (s.newEnds c plans (Action.receivedFrom? source tag) destination).map
        fun e => (e.2, s.levelAfter c level planLevel e.1) := by
  have hpeer : ∀ rank < c.size, ∀ planned ∈ (plans rank).flatten, ∀ peer,
      planned.action.peer? = some peer → peer < c.size :=
    fun rank hrank planned hp peer he => (hc.peers rank hrank planned hp peer he).1
  have hadds : ∀ rank < c.size, ∀ size? : Action → Option Nat,
      (∀ planned ∈ (plans rank).flatten, size? (planned.action.mapPeer c.member) = none) →
      (s.newEnds c plans size? (c.member rank)).map
        (fun e => (e.2, s.levelAfter c level planLevel e.1)) = [] := by
    intro rank hrank size? hnone
    have hends : (plans rank).ends (fun _ => none) (planLevel rank) = [] := by
      simp [RankPlan.ends]
    rw [← hends]
    exact map_newEnds hnodup hrank hnone
  by_cases hs : source ∈ c.members <;> by_cases hd : destination ∈ c.members
  · obtain ⟨a, ha, rfl⟩ := c.exists_member hs
    obtain ⟨b, hb, rfl⟩ := c.exists_member hd
    rw [map_newEnds hnodup ha fun p hp =>
        Action.sentTo?_mapPeer_member hnodup hb tag (hpeer a ha p hp),
      map_newEnds hnodup hb fun p hp =>
        Action.receivedFrom?_mapPeer_member hnodup ha tag (hpeer b hb p hp)]
    exact hc.mirrored a ha b hb tag
  · obtain ⟨a, ha, rfl⟩ := c.exists_member hs
    have hout := hadds a ha (Action.sentTo? destination tag) fun p hp =>
      Action.sentTo?_mapPeer_of_notMem hd tag (hpeer a ha p hp)
    rw [hout, newEnds, if_neg hd]
    rfl
  · obtain ⟨b, hb, rfl⟩ := c.exists_member hd
    have hin := hadds b hb (Action.receivedFrom? source tag) fun p hp =>
      Action.receivedFrom?_mapPeer_of_notMem hs tag (hpeer b hb p hp)
    rw [hin, newEnds, if_neg hs]
    rfl
  · rw [newEnds, if_neg hs, newEnds, if_neg hd]

theorem map_endsFrom_levelAfter (size? : Action → Option Nat) (owner : Nat) :
    (endsFrom size? owner 0 (s.opsAt owner)).map
        (fun e => (e.2, s.levelAfter c level planLevel e.1)) =
      (endsFrom size? owner 0 (s.opsAt owner)).map fun e => (e.2, level e.1) := by
  apply List.map_congr_left
  rintro ⟨id, size⟩ hmem
  obtain ⟨rfl, op, hop, -⟩ := mem_endsFrom.1 hmem
  rw [levelAfter_old]
  rw [op?_eq, hop]
  rfl

/-- Placing coherent plans on distinct members keeps a schedule leveled. -/
theorem Leveled.placed (h : s.Leveled level) (hc : RankPlan.Coherent c.size plans planLevel)
    (hnodup : c.members.Nodup) (hinside : c.Inside s) :
    (s.placed c plans).Leveled (s.levelAfter c level planLevel) where
  apart := by
    intro owner op hop hself
    obtain ⟨index, hindex⟩ := List.mem_iff_getElem?.1 hop
    have hid : (s.placed c plans).op? ⟨owner, index⟩ = some op := by rw [op?_eq, hindex]
    rcases op?_placed hnodup hinside hid with
      hold | ⟨rank, hrank, position, planned, hget, hnew, rfl⟩
    · rw [op?_eq] at hold
      exact h.apart owner op (List.mem_of_getElem? hold) hself
    · obtain ⟨rfl, -⟩ := OpId.mk.inj hnew
      rw [Planned.action_place, Action.peer?_mapPeer, Option.map_eq_some_iff] at hself
      obtain ⟨peer, hpeer, hsame⟩ := hself
      obtain ⟨hlt, hne⟩ := hc.peers rank hrank planned (List.mem_of_getElem? hget) peer hpeer
      exact hne ((c.member_inj hnodup hlt hrank).1 hsame)
  rising := by
    intro id op hop dep hdep
    rcases op?_placed hnodup hinside hop with
      hold | ⟨rank, hrank, position, planned, hget, rfl, rfl⟩
    · obtain ⟨hthere, hrank, hlevel⟩ := h.rising id op hold dep hdep
      have hid : (s.op? id).isSome = true := by simp [hold]
      rw [levelAfter_old hthere, levelAfter_old hid]
      exact ⟨isSome_op?_placed hnodup hinside hthere, hrank, hlevel⟩
    · obtain ⟨wait, hwait, rfl⟩ := Planned.mem_requires_place.1 hdep
      obtain ⟨earlier, hlt, rfl, hlevel⟩ := hc.rising rank hrank position planned hget wait hwait
      refine ⟨?_, rfl, ?_⟩
      · rw [isSome_op?, Wait.resolve, opsAt_placed hnodup hinside plans hrank,
          List.length_append, RankPlan.opsOn, List.length_map]
        exact Nat.add_lt_add_left hlt _
      · rwa [Wait.resolve, levelAfter_new hnodup hrank, levelAfter_new hnodup hrank]
  agrees := by
    intro source destination tag
    rw [outgoing, incoming, endsFrom_placed hnodup hinside, endsFrom_placed hnodup hinside,
      List.map_append, List.map_append, map_endsFrom_levelAfter, map_endsFrom_levelAfter,
      newEnds_agree hc hnodup]
    congr 1
    exact h.agrees source destination tag

end Schedule
end Collectives
