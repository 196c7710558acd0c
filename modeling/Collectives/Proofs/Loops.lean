import Collectives.Proofs.Exchanges

/-!
# Exchanges as loops

The exchanges again, as loops that create and link one pair after another and keep in variables what
later turns wait for. Every list is looked up and every dependency checked at the turn that uses it.
On a schedule that has the ranks of the communicator no look-up and no check fails once the exchange
was accepted, and the loops leave what the planned exchanges leave.
-/

namespace Collectives

namespace Build

/-- If every turn of a loop takes what it is to have after the entries before to what it is to have
after its own, the loop takes what it begins with to what it is to have after all entries. -/
theorem runOn_foldlM {σ α : Type} {turn : σ → α → Build σ} {entries : List α}
    (states : List α → σ) (schedules : List α → Schedule)
    (h : ∀ done entry rest, entries = done ++ entry :: rest →
      (turn (states done) entry).runOn (schedules done) =
        (.ok (states (done ++ [entry])), schedules (done ++ [entry]))) :
    Build.runOn (entries.foldlM turn (states [])) (schedules []) =
      (.ok (states entries), schedules entries) := by
  have hrest : ∀ done rest, entries = done ++ rest →
      Build.runOn (rest.foldlM turn (states done)) (schedules done) =
        (.ok (states entries), schedules entries) := by
    intro done rest
    induction rest generalizing done with
    | nil =>
      intro hsplit
      rw [hsplit, List.append_nil]
      rfl
    | cons entry rest ih =>
      intro hsplit
      have hnext := ih (done ++ [entry]) (by rw [hsplit, List.append_cons])
      simp only [List.foldlM_cons, runOn_bind, h done entry rest hsplit, hnext]
  exact hrest [] entries rfl

/-- The number of a turn is the number of turns before it. -/
theorem turn_of_range {count k : Nat} {done rest : List Nat}
    (h : List.range count = done ++ k :: rest) : k = done.length ∧ done.length < count := by
  have hlength := congrArg List.length h
  have hentry := congrArg (·[done.length]?) h
  simp only [List.length_range, List.length_append, List.length_cons] at hlength
  have hlt : done.length < count := by omega
  rw [List.getElem?_range hlt, List.getElem?_append_right (Nat.le_refl _), Nat.sub_self,
    List.getElem?_cons_zero, Option.some.injEq] at hentry
  exact ⟨hentry.symm, hlt⟩

theorem runOn_foldlM_range {σ : Type} {turn : σ → Nat → Build σ} {count : Nat} (states : Nat → σ)
    (schedules : Nat → Schedule)
    (h : ∀ k < count,
      (turn (states k) k).runOn (schedules k) = (.ok (states (k + 1)), schedules (k + 1))) :
    Build.runOn ((List.range count).foldlM turn (states 0)) (schedules 0) =
      (.ok (states count), schedules count) := by
  have hloop := @runOn_foldlM σ Nat turn (List.range count) (fun done => states done.length)
    (fun done => schedules done.length) fun done k rest hsplit => by
      obtain ⟨rfl, hk⟩ := turn_of_range hsplit
      rw [List.length_append, List.length_singleton]
      exact h done.length hk
  rwa [List.length_range] at hloop

/-- Work for every rank of `c`, in rank order. -/
def eachRank (c : Communicator) (work : Nat → Build Unit) : Build Unit :=
  (List.range c.size).forM work

/-- If the work of every rank leaves what the plan of the rank leaves, all of it leaves what placing
the plans does. -/
theorem runOn_eachRank {c : Communicator} {work : Nat → Build Unit} {plans : Nat → RankPlan}
    (hwork : ∀ rank < c.size, ∀ s, c.Inside s →
      (work rank).runOn s = (.ok (), s.host c plans rank)) {s : Schedule} (hinside : c.Inside s) :
    (eachRank c work).runOn s = (.ok (), s.placed c plans) := by
  have hranks : ∀ ranks : List Nat, (∀ rank ∈ ranks, rank < c.size) → ∀ s, c.Inside s →
      Build.runOn (ranks.forM work) s = (.ok (), ranks.foldl (Schedule.host · c plans) s) := by
    intro ranks hranks
    induction ranks with
    | nil => simp
    | cons rank ranks ih =>
      intro s hinside
      have hgrown : c.Inside (s.host c plans rank) := hinside.grow _ _
      have hrest := ih (fun r hr => hranks r (by simp [hr])) _ hgrown
      simp only [List.forM_eq_forM] at hrest ⊢
      simp only [List.forM_cons, runOn_bind, hwork rank (hranks rank (by simp)) s hinside, hrest,
        List.foldl_cons]
  exact hranks _ (fun rank hrank => List.mem_range.1 hrank) s hinside

variable {c : Communicator} {s : Schedule} {rank owner : Nat} {dep : OpId}

theorem runOn_create_grown (hrank : rank < c.size) (hinside : c.Inside s) (ops : List Op)
    (action : Action) (haction : ∀ peer, action.peer? = some peer → peer < c.size) :
    (create c rank action).runOn (s.grow (c.member rank) ops) =
      (.ok ⟨c.member rank, (s.opsAt (c.member rank)).length + ops.length⟩,
        s.grow (c.member rank) (ops ++ [⟨action.mapPeer c.member, []⟩])) := by
  have howner := hinside _ (c.member_mem hrank)
  rw [runOn_create_eq hrank (by rwa [Schedule.rankCount_grow]) haction,
    Schedule.opsAt_grow_self howner, Schedule.grow_grow, List.length_append]

/-- Whether `dep` is in `s`, or is one of the first `count` operations that `owner` gets next. -/
def Known (s : Schedule) (owner count : Nat) (dep : OpId) : Prop :=
  (s.op? dep).isSome = true ∨
    ∃ position < count, dep = ⟨owner, (s.opsAt owner).length + position⟩

theorem Known.isSome {count : Nat} (h : Known s owner count dep) (howner : owner < s.rankCount)
    {ops : List Op} (hcount : count ≤ ops.length) :
    ((s.grow owner ops).op? dep).isSome = true := by
  rcases h with hold | ⟨position, hlt, rfl⟩
  · exact Schedule.isSome_op?_grow hold owner ops
  · have hposition : position < ops.length := Nat.lt_of_lt_of_le hlt hcount
    simpa [Schedule.isSome_op?, Schedule.opsAt_grow_self howner] using hposition

theorem Known.mono {count more : Nat} (h : Known s owner count dep) (hle : count ≤ more) :
    Known s owner more dep :=
  h.imp_right fun ⟨position, hlt, hdep⟩ => ⟨position, hlt.trans_le hle, hdep⟩

/-- Linking an operation that `owner` got to one that is there. -/
theorem runOn_require_grown (howner : owner < s.rankCount) (front : List Op) (op : Op)
    (rest : List Op) {count : Nat} (hdep : Known s owner count dep)
    (hcount : count ≤ front.length + 1 + rest.length) :
    (require ⟨owner, (s.opsAt owner).length + front.length⟩ dep).runOn
        (s.grow owner (front ++ op :: rest)) =
      (.ok (), s.grow owner (front ++ op.waitFor dep :: rest)) := by
  have hid : ((s.grow owner (front ++ op :: rest)).op?
      ⟨owner, (s.opsAt owner).length + front.length⟩).isSome = true := by
    simp [Schedule.isSome_op?, Schedule.opsAt_grow_self howner]
  have hlength : (front ++ op :: rest).length = front.length + 1 + rest.length := by
    rw [List.length_append, List.length_cons, Nat.add_right_comm, Nat.add_assoc]
  rw [runOn_require, Schedule.require_eq_update hid (hdep.isSome howner (hlength ▸ hcount)),
    Schedule.update_grow]

/-- Linking the first of two operations that `owner` got last to one that is there, perhaps one of
the two. -/
theorem runOn_require_first (howner : owner < s.rankCount) (ops : List Op) (first second : Op)
    (hdep : Known s owner (ops.length + 2) dep) :
    (require ⟨owner, (s.opsAt owner).length + ops.length⟩ dep).runOn
        (s.grow owner (ops ++ [first, second])) =
      (.ok (), s.grow owner (ops ++ [first.waitFor dep, second])) :=
  runOn_require_grown howner ops first [second] hdep (Nat.le_refl _)

theorem runOn_require_second (howner : owner < s.rankCount) (ops : List Op) (first second : Op)
    (hdep : Known s owner (ops.length + 2) dep) :
    (require ⟨owner, (s.opsAt owner).length + (ops.length + 1)⟩ dep).runOn
        (s.grow owner (ops ++ [first, second])) =
      (.ok (), s.grow owner (ops ++ [first, second.waitFor dep])) := by
  have hrequire := runOn_require_grown howner (ops ++ [first]) second [] hdep
    (by rw [List.length_append, List.length_singleton, List.length_nil])
  simpa using hrequire

end Build

namespace Exchange

open Build

/-- Creates the send and the receive of the pair number `k`. -/
def createPair (c : Communicator) (ex : Exchange) (k : Nat) : Build (OpId × OpId) := do
  let destination ← demand (entryAt ex.destinations k)
  let sendSize ← demand (entryAt ex.sendSizes k)
  let send ← create c ex.rank (.send destination sendSize ex.tag)
  let source ← demand (entryAt ex.sources k)
  let recvSize ← demand (entryAt ex.recvSizes k)
  let recv ← create c ex.rank (.recv source recvSize ex.tag)
  return (send, recv)

/-- A turn for every pair, once the exchange is accepted. -/
def eachPair {σ : Type} (c : Communicator) (ex : Exchange) (first : σ) (turn : σ → Nat → Build σ) :
    Build σ := do
  let pairs ← check (ex.pairs c.size)
  (List.range pairs.length).foldlM turn first

/-- Makes both halves of a pair wait for `handle`, if there is one. -/
def linkPair (send recv : OpId) : (handle : Option OpId) → Build Unit
  | none => return
  | some dep => do
    require send dep
    require recv dep

/-- Puts a computation of a positive cost behind a receive; names what to wait for instead of it. -/
def compute (c : Communicator) (rank cost : Nat) (recv : OpId) : Build OpId :=
  if cost = 0 then return recv
  else do
    let computed ← create c rank (.calc cost)
    require computed recv
    return computed

def chainTurn (c : Communicator) (ex : Exchange) (cost : Nat) (handle : Option OpId) (k : Nat) :
    Build (Option OpId) := do
  let (send, recv) ← createPair c ex k
  linkPair send recv handle
  return some (← compute c ex.rank cost recv)

def sequentialLoop (c : Communicator) (ex : Exchange) (last : Option OpId) (cost : Nat) :
    Build (Option OpId) :=
  ex.eachPair c last (chainTurn c ex cost)

def parallelTurn (c : Communicator) (ex : Exchange) (_last : Option OpId) (k : Nat) :
    Build (Option OpId) := do
  let (_, recv) ← createPair c ex k
  return some recv

def parallelLoop (c : Communicator) (ex : Exchange) : Build (Option OpId) :=
  ex.eachPair c none (parallelTurn c ex)

/-- From the pair number `window` on, both halves wait for those of an earlier pair, which is looked
up among the pairs `issued` so far. -/
def windowTurn (c : Communicator) (ex : Exchange) (window : Nat) (issued : List (OpId × OpId))
    (k : Nat) : Build (List (OpId × OpId)) := do
  let (send, recv) ← createPair c ex k
  if window ≤ k then
    let (earlierSend, earlierRecv) ← demand (entryAt issued (k - window))
    require send earlierSend
    require send earlierRecv
    require recv earlierSend
    require recv earlierRecv
  return issued ++ [(send, recv)]

def windowedLoop (c : Communicator) (ex : Exchange) (window : Nat) : Build (Option OpId) := do
  if window = 0 then refuse .zeroWindow
  let issued ← ex.eachPair c [] (windowTurn c ex window)
  return issued.getLast?.map Prod.snd

/-- The operations of one link of a chain. -/
theorem opsOn_link (c : Communicator) (owner base cost : Nat) (handle : Option OpId)
    (pair : Pair) :
    (RankPlan.link cost 0 (handle.map .existing) pair).opsOn c owner base =
      handle.toList.foldl Op.waitFor
          ⟨.send (c.member pair.destination) pair.sendSize pair.tag, []⟩ ::
        handle.toList.foldl Op.waitFor
          ⟨.recv (c.member pair.source) pair.recvSize pair.tag, []⟩ ::
        if cost = 0 then [] else [⟨.calc cost, [⟨owner, base + 1⟩]⟩] := by
  have hwaits : ((handle.map Wait.existing).toList.map (·.resolve owner base)) =
      handle.toList := by
    cases handle <;> rfl
  by_cases hcost : cost = 0
  · simp [RankPlan.link, RankPlan.opsOn, Pair.round, hcost, Planned.place, hwaits, Action.mapPeer]
  · have hcomputed : Planned.place c owner base ⟨.calc cost, [.own 1]⟩ =
        ⟨.calc cost, [⟨owner, base + 1⟩]⟩ := rfl
    simp only [RankPlan.link, RankPlan.opsOn, if_neg hcost, Pair.round, List.flatten_cons,
      List.flatten_nil, List.cons_append, List.nil_append, List.map_cons, List.map_nil, hcomputed]
    simp [Planned.place, hwaits, Action.mapPeer]

section Turns

variable {c : Communicator} {s : Schedule} {ex : Exchange} {pair : Pair} {k : Nat}

/-- At every pair of a valid exchange all four lists have an entry. -/
theorem Valid.entryAt_listed (h : ex.Valid c.size) (hpair : ex.listed[k]? = some pair) :
    entryAt ex.destinations k = .ok pair.destination ∧
      entryAt ex.sendSizes k = .ok pair.sendSize ∧ entryAt ex.sources k = .ok pair.source ∧
      entryAt ex.recvSizes k = .ok pair.recvSize ∧ pair.tag = ex.tag := by
  obtain ⟨hk, rfl⟩ := List.getElem?_eq_some_iff.1 hpair
  rw [h.length_listed] at hk
  have hdestination : k < ex.destinations.length := h.destinations_length ▸ hk
  have hsend : k < ex.sendSizes.length := h.sendSizes_length ▸ hk
  have hrecv : k < ex.recvSizes.length := h.recvSizes_length ▸ hk
  simp [listed, entryAt, hk, hdestination, hsend, hrecv]

theorem runOn_linkPair {owner : Nat} (howner : owner < s.rankCount) (ops : List Op)
    (first second : Op) {handle : Option OpId}
    (hhandle : ∀ dep ∈ handle, Known s owner (ops.length + 2) dep) :
    (linkPair ⟨owner, (s.opsAt owner).length + ops.length⟩
        ⟨owner, (s.opsAt owner).length + (ops.length + 1)⟩ handle).runOn
        (s.grow owner (ops ++ [first, second])) =
      (.ok (), s.grow owner (ops ++
        [handle.toList.foldl Op.waitFor first, handle.toList.foldl Op.waitFor second])) := by
  cases handle with
  | none => rfl
  | some dep =>
    have hdep := hhandle dep rfl
    simp only [linkPair, runOn_bind,
      runOn_require_first howner ops first second hdep,
      runOn_require_second howner ops (first.waitFor dep) second hdep]
    rfl

theorem runOn_compute {rank : Nat} (hrank : rank < c.size) (hinside : c.Inside s) (ops : List Op)
    (first second : Op) (cost : Nat) :
    (compute c rank cost ⟨c.member rank, (s.opsAt (c.member rank)).length + (ops.length + 1)⟩).runOn
        (s.grow (c.member rank) (ops ++ [first, second])) =
      (.ok ⟨c.member rank, (s.opsAt (c.member rank)).length + (ops.length + stride cost) - 1⟩,
        s.grow (c.member rank) (ops ++ first :: second :: if cost = 0 then [] else
          [⟨.calc cost, [⟨c.member rank,
            (s.opsAt (c.member rank)).length + (ops.length + 1)⟩]⟩])) := by
  by_cases hcost : cost = 0
  · simp [compute, hcost, stride]
  · have howner := hinside _ (c.member_mem hrank)
    have hcreate := runOn_create_grown hrank hinside (ops ++ [first, second]) (.calc cost)
      (by intro peer hpeer; cases hpeer)
    have hrequire := runOn_require_grown howner (ops ++ [first, second]) ⟨.calc cost, []⟩ []
      (Or.inr ⟨ops.length + 1, Nat.lt_succ_self _, rfl⟩) (by simp)
    simp only [List.append_assoc, List.cons_append, List.nil_append, List.length_append,
      List.length_cons, List.length_nil, Nat.zero_add, Nat.reduceAdd,
      Action.mapPeer] at hcreate hrequire
    simp only [compute, if_neg hcost, runOn_bind, hcreate, hrequire, runOn_pure, stride]
    rfl

variable (hinside : c.Inside s) (h : ex.Valid c.size) (hpair : ex.listed[k]? = some pair)
include hinside h hpair

theorem runOn_createPair (ops : List Op) :
    (createPair c ex k).runOn (s.grow (c.member ex.rank) ops) =
      (.ok (⟨c.member ex.rank, (s.opsAt (c.member ex.rank)).length + ops.length⟩,
          ⟨c.member ex.rank, (s.opsAt (c.member ex.rank)).length + (ops.length + 1)⟩),
        s.grow (c.member ex.rank) (ops ++
          [⟨.send (c.member pair.destination) pair.sendSize pair.tag, []⟩,
            ⟨.recv (c.member pair.source) pair.recvSize pair.tag, []⟩])) := by
  obtain ⟨hdestination, hsendSize, hsource, hrecvSize, htag⟩ := h.entryAt_listed hpair
  obtain ⟨hsource_lt, hdestination_lt⟩ := h.ends_lt pair (List.mem_of_getElem? hpair)
  have hsend := runOn_create_grown h.rank_lt hinside ops
    (.send pair.destination pair.sendSize ex.tag)
    fun peer hpeer => by cases hpeer; exact hdestination_lt
  have hrecv := runOn_create_grown h.rank_lt hinside
    (ops ++ [⟨Action.mapPeer c.member (.send pair.destination pair.sendSize ex.tag), []⟩])
    (.recv pair.source pair.recvSize ex.tag)
    fun peer hpeer => by cases hpeer; exact hsource_lt
  simp only [createPair, runOn_bind, hdestination, hsendSize, hsource, hrecvSize, runOn_demand_ok,
    hsend, hrecv, runOn_pure]
  simp [Action.mapPeer, htag]

theorem runOn_chainTurn (cost : Nat) {handle : Option OpId} (ops : List Op)
    (hhandle : ∀ dep ∈ handle, Known s (c.member ex.rank) (ops.length + 2) dep) :
    (chainTurn c ex cost handle k).runOn (s.grow (c.member ex.rank) ops) =
      (.ok (some ⟨c.member ex.rank,
          (s.opsAt (c.member ex.rank)).length + (ops.length + stride cost) - 1⟩),
        s.grow (c.member ex.rank) (ops ++
          (RankPlan.link cost 0 (handle.map .existing) pair).opsOn c (c.member ex.rank)
            ((s.opsAt (c.member ex.rank)).length + ops.length))) := by
  have howner := hinside _ (c.member_mem h.rank_lt)
  simp only [chainTurn, runOn_bind, runOn_createPair hinside h hpair ops,
    runOn_linkPair howner ops _ _ hhandle, runOn_compute h.rank_lt hinside, runOn_pure,
    opsOn_link, Nat.add_assoc]

/-- The pairs of `owner` behind `base` other operations, as far as the pair number `count`. -/
def issued (owner base count : Nat) : List (OpId × OpId) :=
  (List.range count).map fun k => (⟨owner, base + 2 * k⟩, ⟨owner, base + (2 * k + 1)⟩)

omit hinside h hpair in
theorem getLast?_issued (owner base count : Nat) :
    (issued owner base count).getLast?.map Prod.snd = left owner base (2 * count) none := by
  cases count with
  | zero => rfl
  | succ count =>
    rw [issued, List.range_succ, List.map_append, List.map_singleton, List.getLast?_concat,
      left_of_ne_zero (Nat.mul_ne_zero (by decide) (Nat.succ_ne_zero count))]
    rfl

theorem runOn_windowTurn {window : Nat} (hwindow : window ≠ 0) (ops : List Op)
    (hops : ops.length = 2 * k) :
    (windowTurn c ex window (issued (c.member ex.rank) (s.opsAt (c.member ex.rank)).length k)
        k).runOn (s.grow (c.member ex.rank) ops) =
      (.ok (issued (c.member ex.rank) (s.opsAt (c.member ex.rank)).length (k + 1)),
        s.grow (c.member ex.rank) (ops ++ (pair.round (RankPlan.windowWaits window k)).map
          (·.place c (c.member ex.rank) (s.opsAt (c.member ex.rank)).length))) := by
  have howner := hinside _ (c.member_mem h.rank_lt)
  have hissued : issued (c.member ex.rank) (s.opsAt (c.member ex.rank)).length (k + 1) =
      issued (c.member ex.rank) (s.opsAt (c.member ex.rank)).length k ++
        [(⟨c.member ex.rank, (s.opsAt (c.member ex.rank)).length + ops.length⟩,
          ⟨c.member ex.rank, (s.opsAt (c.member ex.rank)).length + (ops.length + 1)⟩)] := by
    rw [issued, List.range_succ, List.map_append, ← issued, hops]
    rfl
  by_cases hfirst : window ≤ k
  · have hsend : Known s (c.member ex.rank) (ops.length + 2)
        ⟨c.member ex.rank, (s.opsAt (c.member ex.rank)).length + 2 * (k - window)⟩ :=
      Or.inr ⟨_, by omega, rfl⟩
    have hrecv : Known s (c.member ex.rank) (ops.length + 2)
        ⟨c.member ex.rank, (s.opsAt (c.member ex.rank)).length + (2 * (k - window) + 1)⟩ :=
      Or.inr ⟨_, by omega, rfl⟩
    have hentry : entryAt (issued (c.member ex.rank) (s.opsAt (c.member ex.rank)).length k)
        (k - window) = .ok
          (⟨c.member ex.rank, (s.opsAt (c.member ex.rank)).length + 2 * (k - window)⟩,
            ⟨c.member ex.rank, (s.opsAt (c.member ex.rank)).length + (2 * (k - window) + 1)⟩) := by
      have hlt : k - window < k := by omega
      simp [entryAt, issued, hlt]
    have hwaits : RankPlan.windowWaits window k = RankPlan.halves (k - window) :=
      if_neg (Nat.not_lt.2 hfirst)
    simp only [windowTurn, runOn_bind, runOn_createPair hinside h hpair, if_pos hfirst, hentry,
      runOn_demand_ok, runOn_pure, hissued, hwaits,
      runOn_require_first howner ops _ _ hsend, runOn_require_first howner ops _ _ hrecv,
      runOn_require_second howner ops _ _ hsend, runOn_require_second howner ops _ _ hrecv]
    rfl
  · have hwaits : RankPlan.windowWaits window k = [] := if_pos (by omega)
    simp only [windowTurn, runOn_bind, runOn_createPair hinside h hpair, if_neg hfirst, runOn_pure,
      hissued, hwaits]
    rfl

end Turns

section Loops

variable {c : Communicator} {s : Schedule} {ex : Exchange}

theorem known_left {owner ahead : Nat} {last : Option OpId}
    (hlast : ∀ dep ∈ last, Known s owner ahead dep) (count : Nat) :
    ∀ dep ∈ left owner (s.opsAt owner).length count last, Known s owner (count + ahead) dep := by
  intro dep hdep
  unfold left at hdep
  split at hdep
  case isTrue => exact (hlast dep hdep).mono (Nat.le_add_left ahead count)
  case isFalse hsome =>
    obtain rfl := Option.mem_some_iff.1 hdep
    exact Or.inr ⟨count - 1, by omega, by rw [Nat.add_sub_assoc (Nat.pos_of_ne_zero hsome)]⟩

theorem known_left_none (s : Schedule) (owner count : Nat) :
    ∀ dep ∈ left owner (s.opsAt owner).length count none, Known s owner count dep := by
  have hnone : ∀ dep ∈ (none : Option OpId), Known s owner 0 dep := fun _ hdep => nomatch hdep
  exact known_left hnone count

/-- If the turn for every pair appends what the plan of the pairs so far lacks of the plan with that
pair, the loop appends the plan of all pairs. -/
theorem runOn_eachPair (h : ex.Valid c.size) {σ : Type} {turn : σ → Nat → Build σ}
    {owner base : Nat} (states : Nat → σ) (plan : List Pair → RankPlan) (hnil : plan [] = [])
    (hturn : ∀ (done : List Pair) (pair : Pair), ex.listed[done.length]? = some pair →
      (turn (states done.length) done.length).runOn
          (s.grow owner ((plan done).opsOn c owner base)) =
        (.ok (states (done.length + 1)),
          s.grow owner ((plan (done ++ [pair])).opsOn c owner base))) :
    (ex.eachPair c (states 0) turn).runOn s =
      (.ok (states ex.listed.length), s.grow owner ((plan ex.listed).opsOn c owner base)) := by
  have hloop := runOn_foldlM_range states
    (fun k => s.grow owner ((plan (ex.listed.take k)).opsOn c owner base))
    fun k (hk : k < ex.listed.length) => by
      have hlength : (ex.listed.take k).length = k := List.length_take_of_le hk.le
      have hpair : ex.listed[k]? = some ex.listed[k] := List.getElem?_eq_getElem hk
      have hone := hturn (ex.listed.take k) ex.listed[k] (by rw [hlength, hpair])
      rwa [hlength, List.take_append_getElem hk] at hone
  simp only [List.take_zero, hnil, RankPlan.opsOn_nil, Schedule.grow_nil, List.take_length] at hloop
  simp only [eachPair, runOn_bind, h.pairs_eq, runOn_check_ok]
  exact hloop

/-- One pair after another, when what the first pair waits for is there once it is created. -/
theorem runOn_sequentialLoop_of_known (hinside : c.Inside s) (h : ex.Valid c.size)
    {last : Option OpId} (hlast : ∀ dep ∈ last, Known s (c.member ex.rank) 2 dep) (cost : Nat) :
    (sequentialLoop c ex last cost).runOn s =
      (.ok (left (c.member ex.rank) (s.opsAt (c.member ex.rank)).length
          (stride cost * ex.listed.length) last),
        s.grow (c.member ex.rank)
          ((RankPlan.chained cost 0 (last.map .existing) ex.listed).opsOn c (c.member ex.rank)
            (s.opsAt (c.member ex.rank)).length)) := by
  refine runOn_eachPair h
    (fun k => left (c.member ex.rank) (s.opsAt (c.member ex.rank)).length (stride cost * k) last)
    (RankPlan.chained cost 0 (last.map .existing)) rfl fun done pair hpair => ?_
  have hlength : ((RankPlan.chained cost 0 (last.map .existing) done).opsOn c (c.member ex.rank)
      (s.opsAt (c.member ex.rank)).length).length = stride cost * done.length := by
    rw [RankPlan.opsOn, List.length_map, RankPlan.length_flatten_chained]
  have hknown := known_left hlast (stride cost * done.length)
  rw [← hlength] at hknown
  have hturn := runOn_chainTurn hinside h hpair cost _ hknown
  have hpos : stride cost * (done.length + 1) ≠ 0 :=
    Nat.mul_ne_zero (Nat.ne_of_gt (stride_pos cost)) (Nat.succ_ne_zero _)
  rw [hlength] at hturn
  rw [hturn, opsOn_chained_append, RankPlan.chained_cons, RankPlan.chained, List.append_nil,
    left_of_ne_zero hpos, Nat.mul_succ]

/-- One pair after another: the loop and the plan leave the same, and refuse the same. -/
theorem runOn_sequentialLoop (hinside : c.Inside s) {last : Option OpId}
    (hlast : ∀ id ∈ last, (s.op? id).isSome = true) (cost : Nat) :
    (sequentialLoop c ex last cost).runOn s = (sequential c ex last cost).runOn s := by
  cases hpairs : ex.pairs c.size with
  | error error => simp [sequentialLoop, eachPair, sequential, runOn_bind, hpairs]
  | ok pairs =>
    have h : ex.Valid c.size := valid_iff.2 ⟨pairs, hpairs⟩
    rw [runOn_sequential hinside h hlast,
      runOn_sequentialLoop_of_known hinside h fun dep hdep => Or.inl (hlast dep hdep)]

/-- A sequential exchange behind the pairs `done` of its rank that waits for what they left behind
goes on with their chain. -/
theorem runOn_sequential_behind (hinside : c.Inside s) (h : ex.Valid c.size) {last : Option OpId}
    (hlast : ∀ id ∈ last, (s.op? id).isSome = true) (done : List Pair) (cost : Nat) :
    let handle := left (c.member ex.rank) (s.opsAt (c.member ex.rank)).length
      (stride cost * done.length) last
    let t := s.grow (c.member ex.rank) ((RankPlan.chained cost 0 (last.map .existing) done).opsOn c
      (c.member ex.rank) (s.opsAt (c.member ex.rank)).length)
    (sequential c ex handle cost).runOn t =
        (.ok (left (c.member ex.rank) (s.opsAt (c.member ex.rank)).length
            (stride cost * (done ++ ex.listed).length) last),
          s.grow (c.member ex.rank) ((RankPlan.chained cost 0 (last.map .existing)
            (done ++ ex.listed)).opsOn c (c.member ex.rank)
              (s.opsAt (c.member ex.rank)).length)) ∧
      (sequentialLoop c ex handle cost).runOn t = (sequential c ex handle cost).runOn t := by
  intro handle t
  have howner := hinside _ (c.member_mem h.rank_lt)
  have hgrown : c.Inside t := hinside.grow _ _
  have hlength : ((RankPlan.chained cost 0 (last.map .existing) done).opsOn c (c.member ex.rank)
      (s.opsAt (c.member ex.rank)).length).length = stride cost * done.length := by
    rw [RankPlan.opsOn, List.length_map, RankPlan.length_flatten_chained]
  have hthere : ∀ id ∈ handle, (t.op? id).isSome = true := by
    have hknown : ∀ id ∈ last, Known s (c.member ex.rank) 0 id :=
      fun id hid => Or.inl (hlast id hid)
    exact fun id hid =>
      (known_left hknown (stride cost * done.length) id hid).isSome howner (hlength ▸ Nat.le_refl _)
  refine ⟨?_, runOn_sequentialLoop hgrown hthere cost⟩
  rw [runOn_sequential hgrown h hthere, Schedule.opsAt_grow_self howner, List.length_append,
    hlength, Schedule.grow_grow, left_left, ← opsOn_chained_append, List.length_append,
    Nat.mul_add]

/-- All pairs at once: the loop and the plan leave the same, and refuse the same. -/
theorem runOn_parallelLoop (hinside : c.Inside s) :
    (parallelLoop c ex).runOn s = (parallel c ex).runOn s := by
  cases hpairs : ex.pairs c.size with
  | error error => simp [parallelLoop, eachPair, parallel, runOn_bind, hpairs]
  | ok pairs =>
    have h : ex.Valid c.size := valid_iff.2 ⟨pairs, hpairs⟩
    rw [runOn_parallel hinside h, RankPlan.length_flatten_parallel]
    refine runOn_eachPair h
      (fun k => left (c.member ex.rank) (s.opsAt (c.member ex.rank)).length (2 * k) none)
      RankPlan.parallel rfl fun done pair hpair => ?_
    have happend : RankPlan.parallel (done ++ [pair]) = .parallel done ++ [pair.round []] := by
      simp [RankPlan.parallel]
    rw [happend, RankPlan.opsOn_append,
      left_of_ne_zero (Nat.mul_ne_zero (by decide) (Nat.succ_ne_zero done.length))]
    simp only [parallelTurn, runOn_bind, runOn_createPair hinside h hpair, runOn_pure]
    rw [RankPlan.opsOn, List.length_map, RankPlan.length_flatten_parallel]
    rfl

theorem opsOn_windowed_append (c : Communicator) (owner base window : Nat) (done : List Pair)
    (pair : Pair) :
    (RankPlan.windowed window (done ++ [pair])).opsOn c owner base =
      (RankPlan.windowed window done).opsOn c owner base ++
        (pair.round (RankPlan.windowWaits window done.length)).map (·.place c owner base) := by
  rw [RankPlan.windowed, List.zipIdx_append, List.map_append, ← RankPlan.windowed,
    RankPlan.opsOn_append]
  simp [RankPlan.opsOn, RankPlan.windowWaits]

/-- A bounded number of pairs in flight: the loop and the plan leave the same, and refuse the same.
-/
theorem runOn_windowedLoop (hinside : c.Inside s) (window : Nat) :
    (windowedLoop c ex window).runOn s = (windowed c ex window).runOn s := by
  by_cases hwindow : window = 0
  · simp [windowedLoop, windowed, hwindow, runOn_bind]
  cases hpairs : ex.pairs c.size with
  | error error => simp [windowedLoop, windowed, eachPair, runOn_bind, hpairs, hwindow]
  | ok pairs =>
    have h : ex.Valid c.size := valid_iff.2 ⟨pairs, hpairs⟩
    have hloop : (ex.eachPair c (issued (c.member ex.rank) (s.opsAt (c.member ex.rank)).length 0)
        (windowTurn c ex window)).runOn s =
        (.ok (issued (c.member ex.rank) (s.opsAt (c.member ex.rank)).length ex.listed.length),
          s.grow (c.member ex.rank) ((RankPlan.windowed window ex.listed).opsOn c
            (c.member ex.rank) (s.opsAt (c.member ex.rank)).length)) := by
      refine runOn_eachPair h
        (fun k => issued (c.member ex.rank) (s.opsAt (c.member ex.rank)).length k)
        (RankPlan.windowed window) rfl fun done pair hpair => ?_
      rw [opsOn_windowed_append]
      apply runOn_windowTurn hinside h hpair hwindow
      rw [RankPlan.opsOn, List.length_map, RankPlan.length_flatten_windowed]
    rw [issued, List.range_zero, List.map_nil] at hloop
    rw [runOn_windowed hinside h hwindow, RankPlan.length_flatten_windowed]
    simp only [windowedLoop, if_neg hwindow, runOn_bind, runOn_pure, hloop, getLast?_issued]

end Loops

end Exchange
end Collectives
