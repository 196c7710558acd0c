import Collectives.Proofs.CollectiveLoops

/-!
# Dissemination and the tree as loops

A rank of a dissemination keeps its latest receive, for the send of the next step to wait for. A
rank of a tree keeps its latest send and its latest receive, and links them whenever it meets a
child: this is enough, because the step of the parent comes before the steps of all children.
-/

namespace Collectives

open Build

variable {c : Communicator} {s : Schedule}

/-- Makes an operation wait for `last`, if there is one. -/
def Build.linkLast (id : OpId) : (last : Option OpId) → Build Unit
  | none => return
  | some dep => require id dep

theorem Build.runOn_linkLast {owner : Nat} (howner : owner < s.rankCount) (ops : List Op) (op : Op)
    {last : Option OpId} (hlast : ∀ dep ∈ last, Known s owner ops.length dep) :
    (linkLast ⟨owner, (s.opsAt owner).length + ops.length⟩ last).runOn
        (s.grow owner (ops ++ [op])) =
      (.ok (), s.grow owner (ops ++ [last.toList.foldl Op.waitFor op])) := by
  cases last with
  | none => rfl
  | some dep => exact runOn_require_grown howner ops op [] (hlast dep rfl) (by omega)

namespace Dissemination

/-- A step: the send waits for the receive `last` of the step before. -/
def turn (c : Communicator) (size : Nat) (tag : Tag) (rank : Nat) (last : Option OpId)
    (partner : Nat × Nat) : Build (Option OpId) := do
  let send ← create c rank (.send partner.1 size tag)
  linkLast send last
  return some (← create c rank (.recv partner.2 size tag))

def exchangeLoop (c : Communicator) (size : Nat) (tag : Tag) : Build Unit :=
  eachRank c fun rank => do
    discard ((partners rank c.size).foldlM (turn c size tag rank) none)

/-- The part of a plan that is for the first partners of a rank. -/
def planOf (size : Nat) (tag : Tag) (partners : List (Nat × Nat)) : RankPlan :=
  partners.zipIdx.map fun ((ahead, behind), step) =>
    [⟨.send ahead size tag, if step = 0 then [] else [.own (2 * step - 1)]⟩,
     ⟨.recv behind size tag, []⟩]

variable {size : Nat} {tag : Tag}

theorem length_planOf (partners : List (Nat × Nat)) :
    (planOf size tag partners).flatten.length = 2 * partners.length := by
  rw [planOf, List.length_flatten, List.map_map]
  simp [Function.comp_def, Nat.mul_comm]

theorem planOf_append (done : List (Nat × Nat)) (partner : Nat × Nat) :
    planOf size tag (done ++ [partner]) = planOf size tag done ++
      [[⟨.send partner.1 size tag, if done.length = 0 then [] else [.own (2 * done.length - 1)]⟩,
        ⟨.recv partner.2 size tag, []⟩]] := by
  rw [planOf, List.zipIdx_append, List.map_append, ← planOf]
  simp

theorem partner_lt {rank ranks : Nat} (hranks : 0 < ranks) :
    ∀ partner ∈ partners rank ranks, partner.1 < ranks ∧ partner.2 < ranks := by
  intro partner hmem
  obtain ⟨distance, -, rfl⟩ := List.mem_map.1 hmem
  exact ⟨Nat.mod_lt _ hranks, Nat.mod_lt _ hranks⟩

/-- A step appends what the plan has for it. -/
theorem runOn_turn {rank : Nat} (hrank : rank < c.size) (hinside : c.Inside s)
    (done : List (Nat × Nat)) {partner : Nat × Nat}
    (hpartner : partner.1 < c.size ∧ partner.2 < c.size) :
    (turn c size tag rank (Exchange.left (c.member rank) (s.opsAt (c.member rank)).length
        (2 * done.length) none) partner).runOn
        (s.grow (c.member rank) ((planOf size tag done).opsOn c (c.member rank)
          (s.opsAt (c.member rank)).length)) =
      (.ok (Exchange.left (c.member rank) (s.opsAt (c.member rank)).length
          (2 * (done ++ [partner]).length) none),
        s.grow (c.member rank) ((planOf size tag (done ++ [partner])).opsOn c (c.member rank)
          (s.opsAt (c.member rank)).length)) := by
  have howner := hinside _ (c.member_mem hrank)
  have hlength : ((planOf size tag done).opsOn c (c.member rank)
      (s.opsAt (c.member rank)).length).length = 2 * done.length := by
    rw [RankPlan.opsOn, List.length_map, length_planOf]
  rw [planOf_append, RankPlan.opsOn_append, List.length_append, List.length_singleton,
    Exchange.left_of_ne_zero (Nat.mul_ne_zero (by decide) (Nat.succ_ne_zero done.length))]
  generalize (planOf size tag done).opsOn c (c.member rank) (s.opsAt (c.member rank)).length = ops
    at hlength ⊢
  have hsend := runOn_create_grown hrank hinside ops (.send partner.1 size tag)
    fun peer hpeer => by cases hpeer; exact hpartner.1
  have hknown : ∀ dep ∈ Exchange.left (c.member rank) (s.opsAt (c.member rank)).length
      (2 * done.length) none, Known s (c.member rank) ops.length dep := by
    rw [hlength]
    exact Exchange.known_left_none s _ _
  have hrecv := runOn_create_grown hrank hinside
    (ops ++ [(Exchange.left (c.member rank) (s.opsAt (c.member rank)).length
      (2 * done.length) none).toList.foldl Op.waitFor
        ⟨.send (c.member partner.1) size tag, []⟩])
    (.recv partner.2 size tag) fun peer hpeer => by cases hpeer; exact hpartner.2
  simp only [turn, runOn_bind, hsend, Action.mapPeer, runOn_linkLast howner ops _ hknown, hrecv,
    runOn_pure]
  have hwaits : (Exchange.left (c.member rank) (s.opsAt (c.member rank)).length
      (2 * done.length) none).toList =
      (if done.length = 0 then [] else [Wait.own (2 * done.length - 1)]).map
        (·.resolve (c.member rank) (s.opsAt (c.member rank)).length) := by
    unfold Exchange.left
    split
    case isTrue hfirst => rw [if_pos (by omega)]; rfl
    case isFalse hlater =>
      rw [if_neg (by omega), Nat.add_sub_assoc (by omega)]
      rfl
  have hindex : (s.opsAt (c.member rank)).length + (2 * done.length + 1) =
      (s.opsAt (c.member rank)).length + 2 * (done.length + 1) - 1 := by omega
  rw [hwaits, List.append_assoc, List.length_append, List.length_singleton, hlength, hindex]
  rfl

/-- The loop leaves what placing the plans leaves. -/
theorem runOn_exchangeLoop (hinside : c.Inside s) (size : Nat) (tag : Tag) :
    (exchangeLoop c size tag).runOn s = (exchange size tag).outcome c s := by
  refine runOn_eachRank (fun rank hrank t ht => ?_) hinside
  have hloop := @runOn_foldlM _ _ (turn c size tag rank) (partners rank c.size)
    (fun done => Exchange.left (c.member rank) (t.opsAt (c.member rank)).length
      (2 * done.length) none)
    (fun done => t.grow (c.member rank)
      ((planOf size tag done).opsOn c (c.member rank) (t.opsAt (c.member rank)).length))
    fun done partner rest hsplit => by
      have hmem : partner ∈ partners rank c.size := by
        rw [hsplit]
        exact List.mem_append_right done List.mem_cons_self
      exact runOn_turn hrank ht done (partner_lt (Nat.zero_lt_of_lt hrank) partner hmem)
  have hempty : (planOf size tag []).opsOn c (c.member rank) (t.opsAt (c.member rank)).length =
      [] := rfl
  rw [hempty, Schedule.grow_nil] at hloop
  have hrun : Build.runOn ((partners rank c.size).foldlM (turn c size tag rank) none) t = _ := hloop
  rw [runOn_discard, hrun]
  rfl

end Dissemination

namespace Binomial

/-- The latest send and the latest receive of a rank. -/
structure Latest where
  send : Option OpId := none
  recv : Option OpId := none

/-- Makes the latest send wait for the latest receive, once there are both. -/
def Latest.link : Latest → Build Unit
  | ⟨some send, some recv⟩ => require send recv
  | _ => return

def sendTo (c : Communicator) (size : Nat) (tag : Tag) (rank : Nat) (latest : Latest)
    (peer : Nat) : Build Latest := do
  return { latest with send := some (← create c rank (.send peer size tag)) }

def recvFrom (c : Communicator) (size : Nat) (tag : Tag) (rank : Nat) (latest : Latest)
    (peer : Nat) : Build Latest := do
  return { latest with recv := some (← create c rank (.recv peer size tag)) }

def childTurn (c : Communicator) (size : Nat) (tag : Tag) (direction : Direction) (rank : Nat)
    (latest : Latest) (child : Nat) : Build Latest := do
  let latest ← match direction with
    | .reduce => recvFrom c size tag rank latest child
    | .broadcast => sendTo c size tag rank latest child
  latest.link
  return latest

def parentTurn (c : Communicator) (size : Nat) (tag : Tag) (direction : Direction) (rank : Nat)
    (latest : Latest) (parent : Nat) : Build Latest :=
  match direction with
  | .reduce => sendTo c size tag rank latest parent
  | .broadcast => recvFrom c size tag rank latest parent

/-- A step: first the child, if there is one, then the parent. -/
def turn (c : Communicator) (size : Nat) (tag : Tag) (direction : Direction) (rank : Nat)
    (latest : Latest) (near : Neighbours) : Build Latest := do
  let latest ← match near.child with
    | some child => childTurn c size tag direction rank latest child
    | none => pure latest
  match near.parent with
  | some parent => parentTurn c size tag direction rank latest parent
  | none => return latest

def treeLoop (c : Communicator) (size : Nat) (tag : Tag) (direction : Direction) : Build Unit :=
  eachRank c fun rank => do
    discard ((steps rank c.size).foldlM (turn c size tag direction rank) {})

/-- The plan of a rank with the parent `up`, if any, and the children `down`. -/
def planOf (size : Nat) (tag : Tag) (direction : Direction) (up : Option Nat) (down : List Nat) :
    RankPlan :=
  match direction with
  | .reduce =>
    [up.toList.map (fun parent =>
        ⟨.send parent size tag, (List.range down.length).map (.own <| · + 1)⟩) ++
      down.map (fun child => ⟨.recv child size tag, []⟩)]
  | .broadcast =>
    [up.toList.map (fun parent => ⟨.recv parent size tag, []⟩) ++
      down.map (fun child => ⟨.send child size tag, up.toList.map fun _ => .own 0⟩)]

theorem plan_eq (size : Nat) (tag : Tag) (direction : Direction) (ranks rank : Nat) :
    plan size tag direction ranks rank =
      planOf size tag direction (parent? rank ranks) (children rank ranks) := by
  cases direction <;> rfl

/-- What is latest when the plan for `up` and `down` stands behind `base` operations of `owner`. -/
def latestOf (direction : Direction) (owner base : Nat) (up : Option Nat) (down : List Nat) :
    Latest :=
  let first := up.map fun _ => ⟨owner, base⟩
  let last := Exchange.left owner (base + up.toList.length) down.length none
  match direction with
  | .reduce => ⟨first, last⟩
  | .broadcast => ⟨last, first⟩

section Turns

variable {size : Nat} {tag : Tag} {direction : Direction} {rank : Nat} {up : Option Nat}
  {down : List Nat}

theorem length_planOf (c : Communicator) (owner base : Nat) :
    ((planOf size tag direction up down).opsOn c owner base).length =
      up.toList.length + down.length := by
  cases direction <;> simp [planOf, RankPlan.opsOn]

/-- In a reduction the message to the parent waits for one receive more. -/
theorem runOn_link_reduce {owner : Nat} (howner : owner < s.rankCount) (parent child : Nat) :
    (require ⟨owner, (s.opsAt owner).length⟩
        ⟨owner, (s.opsAt owner).length + (1 + down.length)⟩).runOn
        (s.grow owner ((planOf size tag .reduce (some parent) down).opsOn c owner
          (s.opsAt owner).length ++ [⟨.recv (c.member child) size tag, []⟩])) =
      (.ok (), s.grow owner ((planOf size tag .reduce (some parent) (down ++ [child])).opsOn c owner
        (s.opsAt owner).length)) := by
  have hops : ∀ down : List Nat,
      (planOf size tag .reduce (some parent) down).opsOn c owner (s.opsAt owner).length =
        Planned.place c owner (s.opsAt owner).length
            ⟨.send parent size tag, (List.range down.length).map (.own <| · + 1)⟩ ::
          down.map fun child => ⟨.recv (c.member child) size tag, []⟩ := by
    intro down
    simp [planOf, RankPlan.opsOn, Planned.place, Action.mapPeer]
  have hwait : Planned.place c owner (s.opsAt owner).length
        ⟨.send parent size tag, (List.range (down ++ [child]).length).map (.own <| · + 1)⟩ =
      (Planned.place c owner (s.opsAt owner).length
        ⟨.send parent size tag, (List.range down.length).map (.own <| · + 1)⟩).waitFor
        ⟨owner, (s.opsAt owner).length + (1 + down.length)⟩ := by
    simp [Planned.place, List.range_succ, Wait.resolve, Nat.add_comm]
  have hknown : Known s owner (1 + down.length + 1)
      ⟨owner, (s.opsAt owner).length + (1 + down.length)⟩ := Or.inr ⟨_, Nat.lt_succ_self _, rfl⟩
  have hrequire := runOn_require_grown howner [] (Planned.place c owner (s.opsAt owner).length
      ⟨.send parent size tag, (List.range down.length).map (.own <| · + 1)⟩)
    (down.map (fun child => ⟨.recv (c.member child) size tag, []⟩) ++
      [⟨.recv (c.member child) size tag, []⟩]) hknown
    (by rw [List.length_append, List.length_map, List.length_singleton, List.length_nil]; omega)
  rw [hops, hops, hwait, List.map_append]
  exact hrequire

/-- In a broadcast the message to a child waits for the receive from the parent. -/
theorem runOn_link_broadcast {owner : Nat} (howner : owner < s.rankCount) (parent child : Nat) :
    (require ⟨owner, (s.opsAt owner).length + (1 + down.length)⟩
        ⟨owner, (s.opsAt owner).length⟩).runOn
        (s.grow owner ((planOf size tag .broadcast (some parent) down).opsOn c owner
          (s.opsAt owner).length ++ [⟨.send (c.member child) size tag, []⟩])) =
      (.ok (), s.grow owner ((planOf size tag .broadcast (some parent) (down ++ [child])).opsOn c
        owner (s.opsAt owner).length)) := by
  have hlength : ((planOf size tag .broadcast (some parent) down).opsOn c owner
      (s.opsAt owner).length).length = 1 + down.length := length_planOf c owner _
  have hops : (planOf size tag .broadcast (some parent) (down ++ [child])).opsOn c owner
        (s.opsAt owner).length =
      (planOf size tag .broadcast (some parent) down).opsOn c owner (s.opsAt owner).length ++
        [Op.waitFor ⟨.send (c.member child) size tag, []⟩ ⟨owner, (s.opsAt owner).length⟩] := by
    simp [planOf, RankPlan.opsOn, Planned.place, Action.mapPeer, Wait.resolve]
  have hknown : Known s owner 1 ⟨owner, (s.opsAt owner).length⟩ := Or.inr ⟨0, Nat.one_pos, rfl⟩
  have hrequire := runOn_require_grown howner
    ((planOf size tag .broadcast (some parent) down).opsOn c owner (s.opsAt owner).length)
    ⟨.send (c.member child) size tag, []⟩ [] hknown (by omega)
  rw [hlength] at hrequire
  rw [hops]
  exact hrequire

variable (hrank : rank < c.size) (hinside : c.Inside s)
include hrank hinside

theorem runOn_sendTo (latest : Latest) (ops : List Op) {peer : Nat} (hpeer : peer < c.size) :
    (sendTo c size tag rank latest peer).runOn (s.grow (c.member rank) ops) =
      (.ok { latest with
          send := some ⟨c.member rank, (s.opsAt (c.member rank)).length + ops.length⟩ },
        s.grow (c.member rank) (ops ++ [⟨.send (c.member peer) size tag, []⟩])) := by
  have hsend := runOn_create_grown hrank hinside ops (.send peer size tag)
    fun peer hpeer => by cases hpeer; assumption
  simp only [sendTo, runOn_bind, hsend, runOn_pure]
  rfl

theorem runOn_recvFrom (latest : Latest) (ops : List Op) {peer : Nat} (hpeer : peer < c.size) :
    (recvFrom c size tag rank latest peer).runOn (s.grow (c.member rank) ops) =
      (.ok { latest with
          recv := some ⟨c.member rank, (s.opsAt (c.member rank)).length + ops.length⟩ },
        s.grow (c.member rank) (ops ++ [⟨.recv (c.member peer) size tag, []⟩])) := by
  have hrecv := runOn_create_grown hrank hinside ops (.recv peer size tag)
    fun peer hpeer => by cases hpeer; assumption
  simp only [recvFrom, runOn_bind, hrecv, runOn_pure]
  rfl

/-- A child behind those before it. -/
theorem runOn_childTurn {child : Nat} (hchild : child < c.size) :
    (childTurn c size tag direction rank
        (latestOf direction (c.member rank) (s.opsAt (c.member rank)).length up down)
        child).runOn
        (s.grow (c.member rank) ((planOf size tag direction up down).opsOn c (c.member rank)
          (s.opsAt (c.member rank)).length)) =
      (.ok (latestOf direction (c.member rank) (s.opsAt (c.member rank)).length up
          (down ++ [child])),
        s.grow (c.member rank) ((planOf size tag direction up (down ++ [child])).opsOn c
          (c.member rank) (s.opsAt (c.member rank)).length)) := by
  have howner := hinside _ (c.member_mem hrank)
  have hnew : Exchange.left (c.member rank)
      ((s.opsAt (c.member rank)).length + up.toList.length) (down ++ [child]).length none =
      some ⟨c.member rank,
        (s.opsAt (c.member rank)).length + (up.toList.length + down.length)⟩ := by
    rw [List.length_append, List.length_singleton,
      Exchange.left_of_ne_zero (Nat.succ_ne_zero down.length), Nat.add_assoc]
    rfl
  cases direction with
  | reduce =>
    simp only [childTurn, runOn_bind, runOn_recvFrom hrank hinside _ _ hchild, latestOf,
      runOn_pure, length_planOf, hnew]
    cases up with
    | none => simp [Latest.link, planOf, RankPlan.opsOn, Planned.place, Action.mapPeer]
    | some parent =>
      simp only [Option.map_some, Latest.link, Option.toList_some, List.length_singleton,
        runOn_link_reduce howner]
  | broadcast =>
    simp only [childTurn, runOn_bind, runOn_sendTo hrank hinside _ _ hchild, latestOf,
      runOn_pure, length_planOf, hnew]
    cases up with
    | none => simp [Latest.link, planOf, RankPlan.opsOn, Planned.place, Action.mapPeer]
    | some parent =>
      simp only [Option.map_some, Latest.link, Option.toList_some, List.length_singleton,
        runOn_link_broadcast howner]

theorem runOn_parentTurn {parent : Nat} (hparent : parent < c.size) :
    (parentTurn c size tag direction rank
        (latestOf direction (c.member rank) (s.opsAt (c.member rank)).length none [])
        parent).runOn
        (s.grow (c.member rank) ((planOf size tag direction none []).opsOn c (c.member rank)
          (s.opsAt (c.member rank)).length)) =
      (.ok (latestOf direction (c.member rank) (s.opsAt (c.member rank)).length (some parent) []),
        s.grow (c.member rank) ((planOf size tag direction (some parent) []).opsOn c
          (c.member rank) (s.opsAt (c.member rank)).length)) := by
  cases direction with
  | reduce => exact runOn_sendTo hrank hinside _ [] hparent
  | broadcast => exact runOn_recvFrom hrank hinside _ [] hparent

/-- A step before which nothing was done, or which has no parent, appends what the plan has for it.
-/
theorem runOn_turn (near : Neighbours)
    (hfirst : near.parent = none ∨ near.child = none ∧ up = none ∧ down = [])
    (hchild : ∀ child ∈ near.child, child < c.size)
    (hparent : ∀ parent ∈ near.parent, parent < c.size) :
    (turn c size tag direction rank
        (latestOf direction (c.member rank) (s.opsAt (c.member rank)).length up down) near).runOn
        (s.grow (c.member rank) ((planOf size tag direction up down).opsOn c (c.member rank)
          (s.opsAt (c.member rank)).length)) =
      (.ok (latestOf direction (c.member rank) (s.opsAt (c.member rank)).length
          (up.or near.parent) (down ++ near.child.toList)),
        s.grow (c.member rank) ((planOf size tag direction (up.or near.parent)
          (down ++ near.child.toList)).opsOn c (c.member rank)
            (s.opsAt (c.member rank)).length)) := by
  obtain ⟨child?, parent?⟩ := near
  rcases hfirst with hnone | ⟨hnone, rfl, rfl⟩
  · obtain rfl : parent? = none := hnone
    cases child? with
    | none => simp [turn]
    | some child =>
      simp only [turn, runOn_bind, runOn_childTurn hrank hinside (hchild child rfl), runOn_pure,
        Option.or_none, Option.toList_some]
  · obtain rfl : child? = none := hnone
    cases parent? with
    | none => simp [turn]
    | some parent =>
      simp only [turn, runOn_bind, runOn_pure]
      exact runOn_parentTurn hrank hinside (hparent parent rfl)

end Turns

/-- The step of the parent comes before those of all children. -/
theorem parent_first {rank ranks : Nat} {done rest : List Neighbours} {near : Neighbours}
    (hsplit : steps rank ranks = done ++ near :: rest) :
    near.parent = none ∨
      near.child = none ∧ done.findSome? (·.parent) = none ∧ done.filterMap (·.child) = [] := by
  obtain ⟨before, others, hrange, rfl, hlater⟩ := List.map_eq_append_iff.1 hsplit
  obtain ⟨step, later, rfl, rfl, -⟩ := List.map_eq_cons_iff.1 hlater
  have hbefore : ∀ earlier ∈ before, earlier < step := by
    have hsorted := List.pairwise_lt_range (n := doublings ranks)
    rw [hrange] at hsorted
    exact fun earlier hmem => (List.pairwise_append.1 hsorted).2.2 earlier hmem step
      List.mem_cons_self
  cases hparent : (neighbours rank ranks step).parent with
  | none => exact Or.inl rfl
  | some parent =>
    obtain ⟨⟨hle, -⟩, -⟩ := parent_neighbours.1 hparent
    -- the rank is not below the distance of this step or of any before it
    have hchild : ∀ earlier ≤ step, (neighbours rank ranks earlier).child = none := by
      intro earlier hstep
      rw [Option.eq_none_iff_forall_ne_some]
      intro child hsome
      have hpow := Nat.pow_le_pow_right (show 0 < 2 by decide) hstep
      have hlt := (child_neighbours.1 hsome).1.1
      omega
    refine Or.inr ⟨hchild step (Nat.le_refl step), ?_, ?_⟩
    · rw [List.findSome?_eq_none_iff]
      intro near hmem
      obtain ⟨earlier, hearlier, rfl⟩ := List.mem_map.1 hmem
      rw [Option.eq_none_iff_forall_ne_some]
      intro parent hsome
      have hpow := Nat.pow_le_pow_right (show 0 < 2 by decide) (hbefore earlier hearlier)
      have hlt := (parent_neighbours.1 hsome).1.2
      omega
    · rw [List.filterMap_eq_nil_iff]
      intro near hmem
      obtain ⟨earlier, hearlier, rfl⟩ := List.mem_map.1 hmem
      exact hchild earlier (hbefore earlier hearlier).le

theorem neighbour_lt {rank ranks : Nat} (hrank : rank < ranks) {near : Neighbours}
    (hmem : near ∈ steps rank ranks) :
    (∀ child ∈ near.child, child < ranks) ∧ ∀ parent ∈ near.parent, parent < ranks := by
  obtain ⟨step, -, rfl⟩ := List.mem_map.1 hmem
  constructor
  · intro child hchild
    obtain ⟨⟨-, hlt⟩, rfl⟩ := child_neighbours.1 hchild
    exact hlt
  · intro parent hparent
    obtain ⟨-, rfl⟩ := parent_neighbours.1 hparent
    exact (Nat.sub_le rank (2 ^ step)).trans_lt hrank

/-- The loop leaves what placing the plans leaves. -/
theorem runOn_treeLoop (hinside : c.Inside s) (size : Nat) (tag : Tag) (direction : Direction) :
    (treeLoop c size tag direction).runOn s = (tree size tag direction).outcome c s := by
  refine runOn_eachRank (fun rank hrank t ht => ?_) hinside
  have hloop := @runOn_foldlM _ _ (turn c size tag direction rank) (steps rank c.size)
    (fun done => latestOf direction (c.member rank) (t.opsAt (c.member rank)).length
      (done.findSome? (·.parent)) (done.filterMap (·.child)))
    (fun done => t.grow (c.member rank)
      ((planOf size tag direction (done.findSome? (·.parent)) (done.filterMap (·.child))).opsOn c
        (c.member rank) (t.opsAt (c.member rank)).length))
    fun done near rest hsplit => by
      have hmem : near ∈ steps rank c.size := by
        rw [hsplit]
        exact List.mem_append_right done List.mem_cons_self
      obtain ⟨hchild, hparent⟩ := neighbour_lt hrank hmem
      have hup : (done ++ [near]).findSome? (·.parent) =
          (done.findSome? (·.parent)).or near.parent := by
        simp [List.findSome?_append]
      have hdown : (done ++ [near]).filterMap (·.child) =
          done.filterMap (·.child) ++ near.child.toList := by
        cases hnear : near.child <;> simp [hnear]
      rw [hup, hdown]
      exact runOn_turn hrank ht near (parent_first hsplit) hchild hparent
  have hempty : (planOf size tag direction none []).opsOn c (c.member rank)
      (t.opsAt (c.member rank)).length = [] := by
    cases direction <;> rfl
  have hnone :
      latestOf direction (c.member rank) (t.opsAt (c.member rank)).length none [] = {} := by
    cases direction <;> rfl
  rw [List.findSome?_nil, List.filterMap_nil, hempty, hnone, Schedule.grow_nil] at hloop
  simp only [runOn_discard, hloop, Schedule.host, plan_eq]
  rfl

end Binomial
end Collectives
