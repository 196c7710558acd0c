import Collectives.Proofs.Levels
import Mathlib.Data.Finset.Card

/-!
# The store of operations

A schedule is used through communicators of any kind: operations are created for local ranks, and
operations with arbitrary names are made to wait for each other. Whatever fails on the way, the
store holds just the operations that were created and the dependencies that were accepted, each
once, and what it holds stays.
-/

namespace Collectives

/-- A use of a schedule. An operation is created for a local rank of a communicator, with a local
peer, or one operation is made to wait for another. -/
inductive Use where
  | create (c : Communicator) (rank : Nat) (action : Action)
  | require (id dep : OpId)
  deriving DecidableEq, Repr

/-- A creation that returned a name. -/
structure Creation where
  id : OpId
  on : Communicator
  rank : Nat
  action : Action
  deriving DecidableEq, Repr

/-- A schedule, with the creations that succeeded and the dependencies that were accepted since it
was empty. -/
structure Journal where
  schedule : Schedule
  created : List Creation := []
  linked : List (OpId × OpId) := []
  deriving DecidableEq, Repr

namespace Journal

/-- Uses the schedule once. A use that fails is not written down. -/
def after (j : Journal) : Use → Journal
  | .create c rank action =>
    match (Build.create c rank action).runOn j.schedule with
    | (.ok id, s) => { j with schedule := s, created := j.created ++ [⟨id, c, rank, action⟩] }
    | (.error _, s) => { j with schedule := s }
  | .require id dep =>
    match (Build.require id dep).runOn j.schedule with
    | (.ok (), s) => { j with schedule := s, linked := j.linked ++ [(id, dep)] }
    | (.error _, s) => { j with schedule := s }

def run (start : Schedule) (uses : List Use) : Journal := uses.foldl after { schedule := start }

end Journal

/-- Whether an operation can be created: its rank and its peer are local ranks, and the owner has a
place in the schedule. -/
structure Creatable (c : Communicator) (rank : Nat) (action : Action) (s : Schedule) : Prop where
  rank_lt : rank < c.size
  peer_lt : ∀ peer, action.peer? = some peer → peer < c.size
  owner_lt : c.member rank < s.rankCount

theorem entryAt_of_le {α : Type} {entries : List α} {index : Nat} (h : entries.length ≤ index) :
    entryAt entries index = .error (.indexOutOfBounds entries.length index) := by
  rw [entryAt, List.getElem?_eq_none h]

theorem Action.mapPeerM_of_le {c : Communicator} {action : Action} {peer : Nat}
    (hpeer : action.peer? = some peer) (h : c.size ≤ peer) :
    action.mapPeerM c.globalOf = .error (.indexOutOfBounds c.size peer) := by
  have hglobal : c.globalOf peer = .error (.indexOutOfBounds c.size peer) := entryAt_of_le h
  rcases action with ⟨target, size, tag⟩ | ⟨target, size, tag⟩ | cost
  · cases hpeer
    simp [mapPeerM, hglobal, bind, Except.bind]
  · cases hpeer
    simp [mapPeerM, hglobal, bind, Except.bind]
  · cases hpeer

namespace Build

variable {c : Communicator} {rank : Nat} {action : Action} {s : Schedule}

/-- An operation that cannot be created is a fault and leaves no trace. -/
theorem runOn_create_of_not (h : ¬Creatable c rank action s) :
    ∃ fault, (create c rank action).runOn s = (.error (.faulted fault), s) := by
  by_cases hrank : rank < c.size
  · by_cases hpeer : ∀ peer, action.peer? = some peer → peer < c.size
    · have howner : s.rankCount ≤ c.member rank :=
        Nat.le_of_not_lt fun howner => h ⟨hrank, hpeer, howner⟩
      have happend : s.append (c.member rank) (action.mapPeer c.member) =
          .error (.indexOutOfBounds s.rankCount (c.member rank)) := by
        have hout : s.opsOf (c.member rank) =
            .error (.indexOutOfBounds s.rankCount (c.member rank)) := entryAt_of_le howner
        simp [Schedule.append, hout, bind, Except.bind]
      refine ⟨.indexOutOfBounds s.rankCount (c.member rank), ?_⟩
      simp [create, runOn_bind, c.globalOf_eq hrank, Action.mapPeerM_eq hpeer, happend]
    · push Not at hpeer
      obtain ⟨peer, hpeer, hout⟩ := hpeer
      refine ⟨.indexOutOfBounds c.size peer, ?_⟩
      simp [create, runOn_bind, c.globalOf_eq hrank, Action.mapPeerM_of_le hpeer hout]
  · have hglobal : c.globalOf rank = .error (.indexOutOfBounds c.size rank) :=
      entryAt_of_le (Nat.le_of_not_lt hrank)
    refine ⟨.indexOutOfBounds c.size rank, ?_⟩
    simp [create, runOn_bind, hglobal]

theorem runOn_create_of (h : Creatable c rank action s) :
    (create c rank action).runOn s =
      (.ok ⟨c.member rank, (s.opsAt (c.member rank)).length⟩,
        s.grow (c.member rank) [⟨action.mapPeer c.member, []⟩]) :=
  runOn_create_eq h.rank_lt h.owner_lt h.peer_lt

end Build

/-- A sum over a list changes by what it changes at the place that is modified. -/
private theorem sum_map_modify {α : Type} (g : α → Nat) {xs : List α} {index : Nat} {x : α}
    (h : xs[index]? = some x) (f : α → α) :
    ((xs.modify index f).map g).sum + g x = (xs.map g).sum + g (f x) := by
  induction xs generalizing index with
  | nil => simp at h
  | cons y ys ih =>
    cases index with
    | zero =>
      obtain rfl : y = x := by simpa using h
      simp [Nat.add_comm, Nat.add_left_comm]
    | succ index =>
      have hget : ys[index]? = some x := by simpa using h
      have hrest := ih hget
      simp only [List.modify_succ_cons, List.map_cons, List.sum_cons]
      omega

namespace Schedule

variable {s : Schedule} {id dep : OpId} {op : Op}

theorem opCount_eq_sum (s : Schedule) : s.opCount = (s.ranks.map List.length).sum :=
  List.length_flatten

theorem ranks_getElem? {rank : Nat} (h : rank < s.rankCount) :
    s.ranks[rank]? = some (s.opsAt rank) := by
  have hr : rank < s.ranks.length := h
  simp [opsAt, List.getElem?_eq_getElem hr]

theorem lt_rankCount (hop : s.op? id = some op) : id.rank < s.rankCount := by
  by_contra hout
  rw [op?_eq, opsAt_of_rankCount_le (Nat.le_of_not_lt hout)] at hop
  cases hop

theorem opCount_grow {rank : Nat} (h : rank < s.rankCount) (ops : List Op) :
    (s.grow rank ops).opCount = s.opCount + ops.length := by
  have hsum := sum_map_modify List.length (ranks_getElem? h) (· ++ ops)
  rw [opCount_eq_sum, opCount_eq_sum]
  simp only [grow, List.length_append] at hsum ⊢
  omega

theorem edgeCount_grow {rank : Nat} (h : rank < s.rankCount) (action : Action) :
    (s.grow rank [⟨action, []⟩]).edgeCount = s.edgeCount := by
  have hsum := sum_map_modify (fun ops => (ops.map (·.requires.length)).sum) (ranks_getElem? h)
    (· ++ [⟨action, []⟩])
  rw [edgeCount_eq_sum, edgeCount_eq_sum]
  simp only [grow, List.map_append, List.sum_append, List.map_cons, List.map_nil, List.sum_cons,
    List.sum_nil, List.length_nil, Nat.add_zero] at hsum ⊢
  omega

theorem opCount_update (s : Schedule) (id : OpId) (f : Op → Op) :
    (s.update id f).opCount = s.opCount := by
  by_cases h : id.rank < s.rankCount
  · have hsum := sum_map_modify List.length (ranks_getElem? h) (·.modify id.index f)
    rw [opCount_eq_sum, opCount_eq_sum]
    simp only [update, List.length_modify] at hsum ⊢
    omega
  · have hout : s.ranks.length ≤ id.rank := Nat.le_of_not_lt h
    rw [update, List.modify_eq_self hout]

theorem edgeCount_update (hop : s.op? id = some op) (f : Op → Op) :
    (s.update id f).edgeCount + op.requires.length = s.edgeCount + (f op).requires.length := by
  have hin := lt_rankCount hop
  rw [op?_eq] at hop
  have hrank := sum_map_modify (fun ops => (ops.map (·.requires.length)).sum)
    (ranks_getElem? hin) (·.modify id.index f)
  have hops := sum_map_modify (·.requires.length) hop f
  rw [edgeCount_eq_sum, edgeCount_eq_sum]
  simp only [update]
  omega

/-- A schedule holds what it held and the new operation. -/
theorem op?_grow_singleton {owner : Nat} (howner : owner < s.rankCount) (op : Op) (id : OpId) :
    (s.grow owner [op]).op? id =
      if id = ⟨owner, (s.opsAt owner).length⟩ then some op else s.op? id := by
  obtain ⟨rank, index⟩ := id
  rw [op?_eq, op?_eq]
  by_cases hrank : rank = owner
  · subst hrank
    rw [opsAt_grow_self howner, List.getElem?_append]
    by_cases hlt : index < (s.opsAt rank).length
    · simp [hlt, hlt.ne]
    · by_cases heq : index = (s.opsAt rank).length
      · simp [heq]
      · have hgt : (s.opsAt rank).length < index := by omega
        have hpos : index - (s.opsAt rank).length ≠ 0 := by omega
        simp [heq, hpos, Nat.not_lt.2 hgt.le]
  · rw [opsAt_grow_of_ne s hrank]
    simp [hrank]

theorem op?_update (s : Schedule) (id other : OpId) (f : Op → Op) :
    (s.update id f).op? other = if other = id then (s.op? other).map f else s.op? other := by
  obtain ⟨rank, index⟩ := id
  obtain ⟨rank', index'⟩ := other
  by_cases hrank : rank' = rank
  · subst hrank
    cases hops : s.ranks[rank']? with
    | none => simp [update, op?, hops]
    | some ops =>
      by_cases hindex : index' = index
      · subst hindex
        simp [update, op?, hops]
      · simp [update, op?, hops, hindex, Ne.symm hindex]
  · simp [update, op?, hrank, Ne.symm hrank]

theorem waitFor_eq (op : Op) (dep : OpId) :
    op.waitFor dep =
      ⟨op.action, op.requires ++ if dep ∈ op.requires then [] else [dep]⟩ := by
  unfold Op.waitFor
  split <;> simp_all

theorem requiresOf_grow {owner : Nat} (howner : owner < s.rankCount) (action : Action) (id : OpId) :
    (s.grow owner [⟨action, []⟩]).requiresOf id = s.requiresOf id := by
  rw [requiresOf, requiresOf, op?_grow_singleton howner]
  split
  case isTrue hnew =>
    have hnone : s.op? id = none := by simp [op?_eq, hnew]
    rw [hnone]
    rfl
  case isFalse => rfl

theorem mem_waitFor {op : Op} {dep x : OpId} :
    x ∈ (op.waitFor dep).requires ↔ x ∈ op.requires ∨ x = dep := by
  unfold Op.waitFor
  split
  case isTrue hin =>
    constructor
    · exact Or.inl
    · rintro (hx | rfl)
      · exact hx
      · exact hin
  case isFalse => simp

theorem mem_requiresOf_waitFor (hid : (s.op? id).isSome = true) {other x : OpId} :
    x ∈ (s.update id (·.waitFor dep)).requiresOf other ↔
      x ∈ s.requiresOf other ∨ other = id ∧ x = dep := by
  obtain ⟨op, hop⟩ := Option.isSome_iff_exists.1 hid
  rw [requiresOf, requiresOf, op?_update]
  by_cases h : other = id
  · subst h
    simp [hop, mem_waitFor]
  · simp [h]

theorem nodup_requiresOf_waitFor {other : OpId} (h : (s.requiresOf other).Nodup) :
    ((s.update id (·.waitFor dep)).requiresOf other).Nodup := by
  rw [requiresOf, op?_update]
  by_cases hother : other = id
  · rw [if_pos hother]
    cases hop : s.op? other with
    | none => exact List.nodup_nil
    | some op =>
      rw [requiresOf_eq hop] at h
      rw [Option.map_some, Option.elim_some, Op.waitFor]
      split
      case isTrue => exact h
      case isFalse hnew => simpa using List.Nodup.concat hnew h
  · rwa [if_neg hother]

theorem edgeCount_waitFor (hid : (s.op? id).isSome = true) :
    (s.update id (·.waitFor dep)).edgeCount =
      s.edgeCount + if dep ∈ s.requiresOf id then 0 else 1 := by
  obtain ⟨op, hop⟩ := Option.isSome_iff_exists.1 hid
  have hcount := edgeCount_update hop (·.waitFor dep)
  rw [requiresOf_eq hop]
  rw [waitFor_eq] at hcount
  by_cases hin : dep ∈ op.requires
  · simp only [if_pos hin, List.append_nil] at hcount ⊢
    omega
  · simp only [if_neg hin, List.length_append, List.length_singleton] at hcount ⊢
    omega

/-- Of two operations that are missing the one that is waited for is reported. -/
theorem require_eq_error {error : Error} :
    s.require id dep = .error error ↔
      (s.op? dep = none ∧ error = .unknownOp dep) ∨
        s.op? dep ≠ none ∧ s.op? id = none ∧ error = .unknownOp id := by
  unfold require
  cases hdep : s.op? dep with
  | none => simp [eq_comm]
  | some target =>
    cases hid : s.op? id with
    | none => simp [eq_comm]
    | some op => simp

theorem exists_require_error
    (h : ¬((s.op? id).isSome = true ∧ (s.op? dep).isSome = true)) :
    ∃ error, s.require id dep = .error error := by
  cases hdep : s.op? dep with
  | none => exact ⟨_, require_eq_error.2 (Or.inl ⟨hdep, rfl⟩)⟩
  | some target =>
    cases hid : s.op? id with
    | none => exact ⟨_, require_eq_error.2 (Or.inr ⟨by simp [hdep], hid, rfl⟩)⟩
    | some op => simp [hid, hdep] at h

/-- The operations of a schedule are still there, each with the same action, and what they wait for
has only been added to. -/
def Kept (s t : Schedule) : Prop :=
  ∀ id op, s.op? id = some op → ∃ more, t.op? id = some ⟨op.action, op.requires ++ more⟩

theorem Kept.refl (s : Schedule) : s.Kept s := fun _ _ hop => ⟨[], by simpa using hop⟩

theorem Kept.trans {t u : Schedule} (h : s.Kept t) (h' : t.Kept u) : s.Kept u := by
  intro id op hop
  obtain ⟨more, hmore⟩ := h id op hop
  obtain ⟨rest, hrest⟩ := h' id _ hmore
  exact ⟨more ++ rest, by rw [hrest, List.append_assoc]⟩

theorem kept_grow {owner : Nat} (ops : List Op) : s.Kept (s.grow owner ops) := fun _ op hop =>
  ⟨[], by simpa using op?_grow hop owner ops⟩

theorem kept_update (id dep : OpId) : s.Kept (s.update id (·.waitFor dep)) := by
  intro other op hop
  rw [op?_update]
  by_cases h : other = id
  · rw [if_pos h, hop, Option.map_some, waitFor_eq]
    exact ⟨_, rfl⟩
  · rw [if_neg h]
    exact ⟨[], by simpa using hop⟩

end Schedule

namespace Journal

variable {j : Journal}

/-- What a journal says of its schedule, and what every schedule of a journal is. -/
structure Sound (j : Journal) : Prop where
  /-- What operations wait for exists. -/
  known : ∀ id, ∀ dep ∈ j.schedule.requiresOf id, (j.schedule.op? dep).isSome = true
  /-- Nothing is waited for twice. -/
  once : ∀ id, (j.schedule.requiresOf id).Nodup
  /-- No name was returned twice. -/
  distinct : (j.created.map Creation.id).Nodup
  /-- The names returned are those of the operations there are. -/
  enumerates : ∀ id, id ∈ j.created.map Creation.id ↔ (j.schedule.op? id).isSome = true
  /-- A name still stands for what was created: for the owner, with the kind, size, tag and cost
  that were asked for, and with the member that is the peer. -/
  means : ∀ creation ∈ j.created,
    creation.id.rank = creation.on.member creation.rank ∧
      ∃ requires, j.schedule.op? creation.id =
        some ⟨creation.action.mapPeer creation.on.member, requires⟩
  opCount_eq : j.schedule.opCount = j.created.length
  /-- The dependencies there are were accepted, and those accepted are there. -/
  linked_iff : ∀ id dep, (id, dep) ∈ j.linked ↔ dep ∈ j.schedule.requiresOf id
  edgeCount_eq : j.schedule.edgeCount = j.linked.toFinset.card

theorem sound_idle (count : Nat) : Sound { schedule := .idle count } where
  known := by simp [Schedule.requiresOf, Schedule.op?_idle]
  once := by simp [Schedule.requiresOf, Schedule.op?_idle]
  distinct := List.nodup_nil
  enumerates := by simp [Schedule.op?_idle]
  means := by simp
  opCount_eq := by simp [Schedule.opCount_eq_sum, Schedule.idle]
  linked_iff := by simp [Schedule.requiresOf, Schedule.op?_idle]
  edgeCount_eq := by simp [Schedule.edgeCount_eq_sum, Schedule.idle]

/-- A creation that is a fault leaves the journal as it was. -/
theorem after_create_of_not {c : Communicator} {rank : Nat} {action : Action}
    (h : ¬Creatable c rank action j.schedule) : j.after (.create c rank action) = j := by
  obtain ⟨fault, hrun⟩ := Build.runOn_create_of_not h
  rw [after, hrun]

theorem after_create_of {c : Communicator} {rank : Nat} {action : Action}
    (h : Creatable c rank action j.schedule) :
    j.after (.create c rank action) =
      let id : OpId := ⟨c.member rank, (j.schedule.opsAt (c.member rank)).length⟩
      { schedule := j.schedule.grow (c.member rank) [⟨action.mapPeer c.member, []⟩]
        created := j.created ++ [⟨id, c, rank, action⟩]
        linked := j.linked } := by
  rw [after, Build.runOn_create_of h]

theorem after_require_of_not {id dep : OpId}
    (h : ¬((j.schedule.op? id).isSome = true ∧ (j.schedule.op? dep).isSome = true)) :
    j.after (.require id dep) = j := by
  obtain ⟨error, herror⟩ := Schedule.exists_require_error h
  rw [after, Build.runOn_require, herror]

theorem after_require_of {id dep : OpId} (hid : (j.schedule.op? id).isSome = true)
    (hdep : (j.schedule.op? dep).isSome = true) :
    j.after (.require id dep) =
      { schedule := j.schedule.update id (·.waitFor dep)
        created := j.created
        linked := j.linked ++ [(id, dep)] } := by
  rw [after, Build.runOn_require, Schedule.require_eq_update hid hdep]

theorem Sound.create (h : j.Sound) (c : Communicator) (rank : Nat) (action : Action) :
    (j.after (.create c rank action)).Sound := by
  by_cases hcreatable : Creatable c rank action j.schedule
  · have howner := hcreatable.owner_lt
    have hfind := Schedule.op?_grow_singleton howner ⟨action.mapPeer c.member, []⟩
    have hnew : j.schedule.op? ⟨c.member rank, (j.schedule.opsAt (c.member rank)).length⟩ =
        none := by simp [Schedule.op?_eq]
    rw [after_create_of hcreatable]
    constructor
    case known =>
      intro id dep hdep
      rw [Schedule.requiresOf_grow howner] at hdep
      exact Schedule.isSome_op?_grow (h.known id dep hdep) _ _
    case once =>
      intro id
      rw [Schedule.requiresOf_grow howner]
      exact h.once id
    case distinct =>
      have hfresh : (⟨c.member rank, (j.schedule.opsAt (c.member rank)).length⟩ : OpId) ∉
          j.created.map Creation.id := by
        rw [h.enumerates, hnew]
        simp
      simpa [List.nodup_append, h.distinct] using hfresh
    case enumerates =>
      intro id
      rw [hfind]
      by_cases hid : id = ⟨c.member rank, (j.schedule.opsAt (c.member rank)).length⟩
      · simp [hid]
      · rw [if_neg hid, ← h.enumerates]
        simp [hid]
    case means =>
      intro creation hcreation
      rcases List.mem_append.1 hcreation with hold | hnew
      · obtain ⟨howner, requires, hop⟩ := h.means creation hold
        exact ⟨howner, requires, Schedule.op?_grow hop _ _⟩
      · cases List.mem_singleton.1 hnew
        exact ⟨rfl, [], by rw [hfind, if_pos rfl]⟩
    case opCount_eq =>
      simp [Schedule.opCount_grow howner, h.opCount_eq]
    case linked_iff =>
      intro id dep
      rw [h.linked_iff, Schedule.requiresOf_grow howner]
    case edgeCount_eq =>
      rw [Schedule.edgeCount_grow howner, h.edgeCount_eq]
  · rwa [after_create_of_not hcreatable]

theorem Sound.require (h : j.Sound) (id dep : OpId) : (j.after (.require id dep)).Sound := by
  by_cases hknown : (j.schedule.op? id).isSome = true ∧ (j.schedule.op? dep).isSome = true
  · obtain ⟨hid, hdep⟩ := hknown
    have hmem := fun other x => @Schedule.mem_requiresOf_waitFor _ id dep hid other x
    rw [after_require_of hid hdep]
    constructor
    case distinct => exact h.distinct
    case known =>
      intro other x hx
      rw [Schedule.isSome_op?_update]
      rcases (hmem other x).1 hx with hold | ⟨-, rfl⟩
      · exact h.known other x hold
      · exact hdep
    case once =>
      intro other
      exact Schedule.nodup_requiresOf_waitFor (h.once other)
    case enumerates =>
      intro other
      rw [h.enumerates, Schedule.isSome_op?_update]
    case means =>
      intro creation hcreation
      obtain ⟨howner, requires, hop⟩ := h.means creation hcreation
      obtain ⟨more, hmore⟩ := Schedule.kept_update id dep creation.id _ hop
      exact ⟨howner, _, hmore⟩
    case opCount_eq =>
      rw [Schedule.opCount_update, h.opCount_eq]
    case linked_iff =>
      intro other x
      rw [List.mem_append, h.linked_iff, hmem]
      simp [Prod.ext_iff]
    case edgeCount_eq =>
      have hset : (j.linked ++ [(id, dep)]).toFinset = insert (id, dep) j.linked.toFinset := by
        ext pair
        simp [or_comm]
      rw [Schedule.edgeCount_waitFor hid, hset, h.edgeCount_eq]
      by_cases hin : dep ∈ j.schedule.requiresOf id
      · rw [if_pos hin, Finset.insert_eq_of_mem (List.mem_toFinset.2 ((h.linked_iff id dep).2 hin))]
        rfl
      · rw [if_neg hin, Finset.card_insert_of_notMem]
        rwa [List.mem_toFinset, h.linked_iff]
  · rwa [after_require_of_not hknown]

theorem Sound.after (h : j.Sound) (use : Use) : (j.after use).Sound := by
  cases use with
  | create c rank action => exact h.create c rank action
  | require id dep => exact h.require id dep

theorem kept_after (j : Journal) (use : Use) : j.schedule.Kept (j.after use).schedule := by
  cases use with
  | create c rank action =>
    by_cases h : Creatable c rank action j.schedule
    · rw [after_create_of h]
      exact Schedule.kept_grow _
    · rw [after_create_of_not h]
      exact Schedule.Kept.refl _
  | require id dep =>
    by_cases h : (j.schedule.op? id).isSome = true ∧ (j.schedule.op? dep).isSome = true
    · rw [after_require_of h.1 h.2]
      exact Schedule.kept_update id dep
    · rw [after_require_of_not h]
      exact Schedule.Kept.refl _

theorem Sound.foldl_after (uses : List Use) (h : j.Sound) :
    (uses.foldl Journal.after j).Sound ∧
      j.schedule.Kept (uses.foldl Journal.after j).schedule := by
  induction uses generalizing j with
  | nil => exact ⟨h, Schedule.Kept.refl _⟩
  | cons use uses ih =>
    obtain ⟨hsound, hkept⟩ := ih (h.after use)
    exact ⟨hsound, (j.kept_after use).trans hkept⟩

end Journal

/-- Uses of a schedule that fail leave it as it was. An operation is created just if its ranks are
there, and anything else is a fault; a dependency between operations that are missing is refused,
and of two that are missing the one that is waited for is reported. -/
structure Schedule.Guarded (s : Schedule) : Prop where
  creates : ∀ c rank action,
    (∃ id, ((Build.create c rank action).runOn s).1 = .ok id) ↔ Creatable c rank action s
  faults : ∀ c rank action failure,
    ((Build.create c rank action).runOn s).1 = .error failure →
      (∃ fault, failure = .faulted fault) ∧ ((Build.create c rank action).runOn s).2 = s
  refuses : ∀ id dep failure, ((Build.require id dep).runOn s).1 = .error failure ↔
    (s.op? dep = none ∧ failure = .refused (.unknownOp dep)) ∨
      s.op? dep ≠ none ∧ s.op? id = none ∧ failure = .refused (.unknownOp id)
  unchanged : ∀ id dep failure, ((Build.require id dep).runOn s).1 = .error failure →
    ((Build.require id dep).runOn s).2 = s

theorem Schedule.guarded (s : Schedule) : s.Guarded where
  creates := by
    intro c rank action
    by_cases h : Creatable c rank action s
    · simp [Build.runOn_create_of h, h]
    · obtain ⟨fault, hrun⟩ := Build.runOn_create_of_not h
      simp [hrun, h]
  faults := by
    intro c rank action failure hfailed
    by_cases h : Creatable c rank action s
    · rw [Build.runOn_create_of h] at hfailed
      cases hfailed
    · obtain ⟨fault, hrun⟩ := Build.runOn_create_of_not h
      rw [hrun] at hfailed ⊢
      cases hfailed
      exact ⟨⟨fault, rfl⟩, rfl⟩
  refuses := by
    intro id dep failure
    have hrefused : ((Build.require id dep).runOn s).1 = .error failure ↔
        ∃ error, failure = .refused error ∧ s.require id dep = .error error := by
      rw [Build.runOn_require]
      cases s.require id dep <;> simp [eq_comm]
    rw [hrefused]
    simp only [require_eq_error]
    constructor
    · rintro ⟨error, rfl, ⟨hdep, rfl⟩ | ⟨hdep, hid, rfl⟩⟩
      · exact Or.inl ⟨hdep, rfl⟩
      · exact Or.inr ⟨hdep, hid, rfl⟩
    · rintro (⟨hdep, rfl⟩ | ⟨hdep, hid, rfl⟩)
      · exact ⟨_, rfl, Or.inl ⟨hdep, rfl⟩⟩
      · exact ⟨_, rfl, Or.inr ⟨hdep, hid, rfl⟩⟩
  unchanged := by
    intro id dep failure hfailed
    rw [Build.runOn_require] at hfailed ⊢
    cases hrequire : s.require id dep with
    | ok made =>
      rw [hrequire] at hfailed
      cases hfailed
    | error error => rfl

namespace Journal

/-- However an empty schedule is used, through whatever communicators and names: what it waits for
exists and is there once; its operations are those that were created, under the names returned,
which are all different, and each still does what it was created to do; it counts the creations and
the different dependencies that were accepted. Operations stay, and what they wait for is only added
to at the end. And what fails leaves no trace. -/
theorem store_sound {start : Schedule} (hstart : start = {} ∨ ∃ count, start = .idle count)
    (uses : List Use) :
    (run start uses).Sound ∧
      (∀ front rest, uses = front ++ rest →
        (run start front).schedule.Kept (run start uses).schedule) ∧
      (run start uses).schedule.Guarded := by
  have hempty : Sound { schedule := start } := by
    rcases hstart with rfl | ⟨count, rfl⟩
    · exact sound_idle 0
    · exact sound_idle count
  refine ⟨(hempty.foldl_after uses).1, ?_, Schedule.guarded _⟩
  rintro front rest rfl
  rw [run, run, List.foldl_append]
  exact ((hempty.foldl_after front).1.foldl_after rest).2

/-- A communicator that has the rank 1 twice and a rank outside. Two operations are created and one
is made to wait for itself, twice; what else is tried fails. -/
theorem store_sound_outside :
    let c : Communicator := ⟨[1, 5, 1]⟩
    let uses : List Use :=
      [.create c 0 (.send 2 8 3), .create c 1 (.calc 4), .create c 2 (.recv 3 8 3),
        .create c 2 (.recv 1 8 3), .require ⟨1, 1⟩ ⟨1, 1⟩, .require ⟨1, 2⟩ ⟨0, 0⟩,
        .require ⟨1, 1⟩ ⟨1, 1⟩]
    let j := run (.idle 2) uses
    (Schedule.idle 2 = {} ∨ ∃ count, Schedule.idle 2 = .idle count) ∧
      j.schedule = ⟨[[], [⟨.send 1 8 3, []⟩, ⟨.recv 5 8 3, [⟨1, 1⟩]⟩]]⟩ ∧
      j.schedule.edgeCount = j.linked.toFinset.card ∧ j.linked.length = 2 ∧
      ((Build.require ⟨1, 2⟩ ⟨0, 0⟩).runOn j.schedule).1 =
        .error (.refused (.unknownOp ⟨0, 0⟩)) := by
  intro c uses j
  have hstart : Schedule.idle 2 = {} ∨ ∃ count, Schedule.idle 2 = .idle count := Or.inr ⟨2, rfl⟩
  obtain ⟨hsound, -, hguarded⟩ := store_sound hstart uses
  have hmade : j.schedule = ⟨[[], [⟨.send 1 8 3, []⟩, ⟨.recv 5 8 3, [⟨1, 1⟩]⟩]]⟩ := by decide
  have hmissing : j.schedule.op? ⟨0, 0⟩ = none := by rw [hmade]; rfl
  exact ⟨hstart, hmade, hsound.edgeCount_eq, by decide,
    (hguarded.refuses _ _ _).2 (Or.inl ⟨hmissing, rfl⟩)⟩

end Journal
end Collectives
