import Collectives.Proofs.Placing
import Mathlib.Data.List.Nodup
import Mathlib.Logic.Relation

/-!
# Channels

A channel is a source, a destination and a tag. The sends and the receives of a channel are taken in
the order of their creation, and the `k`-th send is matched with the `k`-th receive.
-/

namespace Collectives

namespace Action

/-- The size of a send to `peer` under `tag`. -/
def sentTo? (peer : Nat) (tag : Tag) : Action → Option Nat
  | .send destination size label => if destination = peer ∧ label = tag then some size else none
  | _ => none

def receivedFrom? (peer : Nat) (tag : Tag) : Action → Option Nat
  | .recv source size label => if source = peer ∧ label = tag then some size else none
  | _ => none

theorem sentTo?_eq_some {peer size : Nat} {tag : Tag} {action : Action} :
    action.sentTo? peer tag = some size ↔ action = .send peer size tag := by
  rcases action with ⟨destination, size', label⟩ | _ | _
  · simp [sentTo?]
    tauto
  · simp [sentTo?]
  · simp [sentTo?]

theorem receivedFrom?_eq_some {peer size : Nat} {tag : Tag} {action : Action} :
    action.receivedFrom? peer tag = some size ↔ action = .recv peer size tag := by
  rcases action with _ | ⟨source, size', label⟩ | _
  · simp [receivedFrom?]
  · simp [receivedFrom?]
    tauto
  · simp [receivedFrom?]

end Action

/-- The operations among `ops` that `size?` selects, in order, each with its name and its size. The
names are those of operations of `rank` from the position `base` on. -/
def endsFrom (size? : Action → Option Nat) (rank base : Nat) (ops : List Op) : List (OpId × Nat) :=
  (ops.zipIdx base).filterMap fun (op, index) =>
    (size? op.action).map fun size => (⟨rank, index⟩, size)

namespace Schedule

def outgoing (s : Schedule) (source destination : Nat) (tag : Tag) : List (OpId × Nat) :=
  endsFrom (Action.sentTo? destination tag) source 0 (s.opsAt source)

def incoming (s : Schedule) (source destination : Nat) (tag : Tag) : List (OpId × Nat) :=
  endsFrom (Action.receivedFrom? source tag) destination 0 (s.opsAt destination)

/-- The two operations are the `k`-th send and the `k`-th receive of one channel, for some `k`. -/
def Matched (s : Schedule) (sender receiver : OpId) : Prop :=
  ∃ (source destination : Nat) (tag : Tag) (k : Nat),
    (s.outgoing source destination tag)[k]?.map Prod.fst = some sender ∧
    (s.incoming source destination tag)[k]?.map Prod.fst = some receiver

/-- The send that is matched with a receive. -/
def sender? (s : Schedule) (receiver : OpId) : Option OpId :=
  match s.op? receiver with
  | some ⟨.recv source _ tag, _⟩ =>
    let place := ((s.incoming source receiver.rank tag).map Prod.fst).idxOf receiver
    (s.outgoing source receiver.rank tag)[place]?.map Prod.fst
  | _ => none

/-- The operations that `id` waits for; none if there is no such operation. -/
def requiresOf (s : Schedule) (id : OpId) : List OpId := (s.op? id).elim [] (·.requires)

/-- What directly has to come before an operation: what it requires, and the send of a message
before its receive. -/
def Causes (s : Schedule) (earlier later : OpId) : Prop :=
  earlier ∈ s.requiresOf later ∨ s.Matched earlier later

end Schedule

section Ends

variable {size? : Action → Option Nat} {rank base : Nat}

theorem endsFrom_append (ops more : List Op) :
    endsFrom size? rank base (ops ++ more) =
      endsFrom size? rank base ops ++ endsFrom size? rank (base + ops.length) more := by
  simp [endsFrom, List.zipIdx_append]

theorem mem_endsFrom {ops : List Op} {id : OpId} {size : Nat} :
    (id, size) ∈ endsFrom size? rank 0 ops ↔
      id.rank = rank ∧ ∃ op, ops[id.index]? = some op ∧ size? op.action = some size := by
  simp only [endsFrom, List.mem_filterMap, Prod.exists, List.mem_zipIdx_iff_getElem?,
    Option.map_eq_some_iff, Prod.mk.injEq]
  constructor
  · rintro ⟨op, index, hop, size', hsize, rfl, rfl⟩
    exact ⟨rfl, op, hop, hsize⟩
  · rintro ⟨rfl, op, hop, hsize⟩
    exact ⟨op, id.index, hop, size, hsize, rfl, rfl⟩

theorem nodup_endsFrom (ops : List Op) :
    ((endsFrom size? rank base ops).map Prod.fst).Nodup := by
  induction ops generalizing base with
  | nil => simp [endsFrom]
  | cons op ops ih =>
    have hlater : ∀ e ∈ endsFrom size? rank (base + 1) ops, base < e.1.index := by
      intro e he
      simp only [endsFrom, List.mem_filterMap, Prod.exists, Option.map_eq_some_iff] at he
      obtain ⟨op, index, hop, size, -, rfl⟩ := he
      have hle := List.le_snd_of_mem_zipIdx hop
      exact hle
    have hstep : endsFrom size? rank base (op :: ops) =
        endsFrom size? rank base [op] ++ endsFrom size? rank (base + 1) ops :=
      endsFrom_append [op] ops
    rw [hstep, List.map_append]
    cases hop : size? op.action with
    | none => simpa [endsFrom, hop] using @ih (base + 1)
    | some size =>
      simp only [endsFrom, List.zipIdx_singleton, List.filterMap_cons, hop, Option.map_some,
        List.filterMap_nil, List.map_cons, List.map_nil, List.singleton_append, List.nodup_cons]
      refine ⟨fun hmem => ?_, ih⟩
      obtain ⟨e, he, heq⟩ := List.mem_map.1 hmem
      have := hlater e he
      simp [heq] at this

end Ends

namespace Schedule

variable {s : Schedule} {source destination : Nat} {tag : Tag} {id sender receiver : OpId}

theorem mem_outgoing {size : Nat} :
    (id, size) ∈ s.outgoing source destination tag ↔
      id.rank = source ∧ ∃ requires, s.op? id = some ⟨.send destination size tag, requires⟩ := by
  rw [outgoing, mem_endsFrom]
  simp only [Action.sentTo?_eq_some, op?_eq]
  constructor
  · rintro ⟨rfl, ⟨action, requires⟩, hop, rfl⟩
    exact ⟨rfl, requires, hop⟩
  · rintro ⟨rfl, requires, hop⟩
    exact ⟨rfl, _, hop, rfl⟩

theorem mem_incoming {size : Nat} :
    (id, size) ∈ s.incoming source destination tag ↔
      id.rank = destination ∧ ∃ requires, s.op? id = some ⟨.recv source size tag, requires⟩ := by
  rw [incoming, mem_endsFrom]
  simp only [Action.receivedFrom?_eq_some, op?_eq]
  constructor
  · rintro ⟨rfl, ⟨action, requires⟩, hop, rfl⟩
    exact ⟨rfl, requires, hop⟩
  · rintro ⟨rfl, requires, hop⟩
    exact ⟨rfl, _, hop, rfl⟩

theorem nodup_outgoing : ((s.outgoing source destination tag).map Prod.fst).Nodup :=
  nodup_endsFrom _

theorem nodup_incoming : ((s.incoming source destination tag).map Prod.fst).Nodup :=
  nodup_endsFrom _

/-- Both ends of a matched pair are operations of one channel. -/
theorem Matched.ops (h : s.Matched sender receiver) :
    ∃ (size size' : Nat) (tag : Tag) (requires requires' : List OpId),
      s.op? sender = some ⟨.send receiver.rank size tag, requires⟩ ∧
      s.op? receiver = some ⟨.recv sender.rank size' tag, requires'⟩ := by
  obtain ⟨source, destination, tag, k, hsender, hreceiver⟩ := h
  obtain ⟨⟨x, size⟩, hx, rfl⟩ := Option.map_eq_some_iff.1 hsender
  obtain ⟨⟨y, size'⟩, hy, rfl⟩ := Option.map_eq_some_iff.1 hreceiver
  obtain ⟨rfl, requires, hsend⟩ := mem_outgoing.1 (List.mem_of_getElem? hx)
  obtain ⟨rfl, requires', hrecv⟩ := mem_incoming.1 (List.mem_of_getElem? hy)
  exact ⟨size, size', tag, requires, requires', hsend, hrecv⟩

/-- The place of a matched pair in the channel of its receive. -/
theorem Matched.place (h : s.Matched sender receiver) {size : Nat} {requires : List OpId}
    (hrecv : s.op? receiver = some ⟨.recv source size tag, requires⟩) :
    source = sender.rank ∧ ∃ k : Nat,
      (s.outgoing source receiver.rank tag)[k]?.map Prod.fst = some sender ∧
      (s.incoming source receiver.rank tag)[k]?.map Prod.fst = some receiver := by
  obtain ⟨source', destination, tag', k, hsender, hreceiver⟩ := h
  obtain ⟨⟨x, size'⟩, hx, rfl⟩ := Option.map_eq_some_iff.1 hsender
  obtain ⟨⟨y, size''⟩, hy, rfl⟩ := Option.map_eq_some_iff.1 hreceiver
  obtain ⟨rfl, -⟩ := mem_outgoing.1 (List.mem_of_getElem? hx)
  obtain ⟨rfl, requires', hop⟩ := mem_incoming.1 (List.mem_of_getElem? hy)
  rw [hop] at hrecv
  obtain ⟨⟨rfl, rfl, rfl⟩, rfl⟩ := by simpa using hrecv
  exact ⟨rfl, k, hsender, hreceiver⟩

theorem sender?_eq_some : s.sender? receiver = some sender ↔ s.Matched sender receiver := by
  constructor
  · intro h
    unfold sender? at h
    split at h
    case h_1 source size tag requires hop =>
      refine ⟨source, receiver.rank, tag, _, h, ?_⟩
      have hin : (receiver, size) ∈ s.incoming source receiver.rank tag :=
        mem_incoming.2 ⟨rfl, requires, hop⟩
      rw [← List.getElem?_map]
      exact List.getElem?_idxOf (List.mem_map_of_mem hin)
    case h_2 => cases h
  · intro h
    obtain ⟨size, size', tag, requires, requires', hsend, hrecv⟩ := h.ops
    obtain ⟨-, k, hk, hk'⟩ := h.place hrecv
    rw [← List.getElem?_map] at hk'
    obtain ⟨hlt, hget⟩ := List.getElem?_eq_some_iff.1 hk'
    have hplace := nodup_incoming.idxOf_getElem k hlt
    rw [hget] at hplace
    simp only [sender?, hrecv, hplace, hk]

theorem Matched.sender_unique {other : OpId} (h : s.Matched sender receiver)
    (h' : s.Matched other receiver) : sender = other :=
  Option.some.inj ((sender?_eq_some.2 h).symm.trans (sender?_eq_some.2 h'))

theorem Matched.receiver_unique {other : OpId} (h : s.Matched sender receiver)
    (h' : s.Matched sender other) : receiver = other := by
  obtain ⟨size, size', tag, requires, requires', hsend, hrecv⟩ := h.ops
  obtain ⟨size₁, size₁', tag₁, requires₁, requires₁', hsend₁, hrecv₁⟩ := h'.ops
  obtain ⟨⟨hrank, -, rfl⟩, -⟩ := by simpa [hsend] using hsend₁
  obtain ⟨-, k, hk, hy⟩ := h.place hrecv
  obtain ⟨-, k', hk', hy'⟩ := h'.place hrecv₁
  rw [← hrank, ← List.getElem?_map] at hk' hy'
  rw [← List.getElem?_map] at hk hy
  have hlt := (List.getElem?_eq_some_iff.1 hk).1
  obtain rfl := (List.getElem?_inj hlt nodup_outgoing).1 (hk.trans hk'.symm)
  exact Option.some.inj (hy.symm.trans hy')

theorem Matched.isSome_sender {sender receiver : OpId} (h : s.Matched sender receiver) :
    (s.op? sender).isSome = true := by
  obtain ⟨size, size', tag, requires, requires', hsend, -⟩ := h.ops
  rw [hsend]
  rfl

theorem Matched.isSome_receiver {sender receiver : OpId} (h : s.Matched sender receiver) :
    (s.op? receiver).isSome = true := by
  obtain ⟨size, size', tag, requires, requires', -, hrecv⟩ := h.ops
  rw [hrecv]
  rfl

theorem not_matched_of_calc {id : OpId} {cost : Nat} {requires : List OpId}
    (hop : s.op? id = some ⟨.calc cost, requires⟩) (other : OpId) :
    ¬s.Matched id other ∧ ¬s.Matched other id := by
  constructor
  · intro h
    obtain ⟨size, size', tag, requires₁, requires₁', hsend, -⟩ := h.ops
    simp [hop] at hsend
  · intro h
    obtain ⟨size, size', tag, requires₁, requires₁', -, hrecv⟩ := h.ops
    simp [hop] at hrecv

theorem Matched.ne {sender receiver a b : OpId} (h : s.Matched sender b)
    (h' : s.Matched a receiver) : sender ≠ receiver := by
  rintro rfl
  obtain ⟨size, size', tag, requires, requires', hsend, -⟩ := h.ops
  obtain ⟨size₁, size₁', tag₁, requires₁, requires₁', -, hrecv⟩ := h'.ops
  simp [hsend] at hrecv

theorem requiresOf_eq {id : OpId} {op : Op} (hop : s.op? id = some op) :
    s.requiresOf id = op.requires := by
  rw [requiresOf, hop]
  rfl

/-- On every channel the sends and the receives agree, in order, on their sizes and on `stamp`. -/
def Agrees {α : Type} (s : Schedule) (stamp : OpId → α) : Prop :=
  ∀ source destination tag,
    (s.outgoing source destination tag).map (fun e => (e.2, stamp e.1)) =
      (s.incoming source destination tag).map fun e => (e.2, stamp e.1)

section Agrees

variable {α : Type} {stamp : OpId → α}

theorem Agrees.sizes (h : s.Agrees stamp) (source destination : Nat) (tag : Tag) :
    (s.outgoing source destination tag).map Prod.snd =
      (s.incoming source destination tag).map Prod.snd := by
  have hfst := congrArg (List.map Prod.fst) (h source destination tag)
  simpa [Function.comp_def] using hfst

theorem Agrees.length_eq (h : s.Agrees stamp) (source destination : Nat) (tag : Tag) :
    (s.outgoing source destination tag).length = (s.incoming source destination tag).length := by
  simpa using congrArg List.length (h source destination tag)

theorem Agrees.of_matched (h : s.Agrees stamp) (hm : s.Matched sender receiver) :
    stamp sender = stamp receiver := by
  obtain ⟨source, destination, tag, k, hsender, hreceiver⟩ := hm
  obtain ⟨⟨x, size⟩, hx, rfl⟩ := Option.map_eq_some_iff.1 hsender
  obtain ⟨⟨y, size'⟩, hy, rfl⟩ := Option.map_eq_some_iff.1 hreceiver
  have hk := congrArg (·[k]?) (h source destination tag)
  simp only [List.getElem?_map, hx, hy, Option.map_some, Option.some.injEq, Prod.mk.injEq] at hk
  exact hk.2

theorem Agrees.size_of_matched (h : s.Agrees stamp) (hm : s.Matched sender receiver) :
    ∃ (size : Nat) (tag : Tag) (requires requires' : List OpId),
      s.op? sender = some ⟨.send receiver.rank size tag, requires⟩ ∧
      s.op? receiver = some ⟨.recv sender.rank size tag, requires'⟩ := by
  obtain ⟨size, size', tag, requires, requires', hsend, hrecv⟩ := hm.ops
  obtain ⟨-, k, hk, hk'⟩ := hm.place hrecv
  obtain ⟨⟨x, a⟩, hx, rfl⟩ := Option.map_eq_some_iff.1 hk
  obtain ⟨⟨y, b⟩, hy, rfl⟩ := Option.map_eq_some_iff.1 hk'
  obtain ⟨-, r, hxop⟩ := mem_outgoing.1 (List.mem_of_getElem? hx)
  obtain ⟨-, r', hyop⟩ := mem_incoming.1 (List.mem_of_getElem? hy)
  have hsizes := congrArg (·[k]?) (h.sizes x.rank y.rank tag)
  simp only [List.getElem?_map, hx, hy, Option.map_some, Option.some.injEq] at hsizes
  subst hsizes
  exact ⟨a, tag, r, r', hxop, hyop⟩

theorem Agrees.exists_receiver (h : s.Agrees stamp) {size : Nat} {requires : List OpId}
    (hsend : s.op? sender = some ⟨.send destination size tag, requires⟩) :
    ∃ receiver, s.Matched sender receiver := by
  have hmem : (sender, size) ∈ s.outgoing sender.rank destination tag :=
    mem_outgoing.2 ⟨rfl, requires, hsend⟩
  obtain ⟨k, hk⟩ := List.mem_iff_getElem?.1 hmem
  have hlt := (List.getElem?_eq_some_iff.1 hk).1
  rw [h.length_eq] at hlt
  refine ⟨(s.incoming sender.rank destination tag)[k].1, sender.rank, destination, tag, k, ?_, ?_⟩
  · simp [hk]
  · simp [List.getElem?_eq_getElem hlt]

theorem Agrees.exists_sender (h : s.Agrees stamp) {size : Nat} {requires : List OpId}
    (hrecv : s.op? receiver = some ⟨.recv source size tag, requires⟩) :
    ∃ sender, s.Matched sender receiver := by
  have hmem : (receiver, size) ∈ s.incoming source receiver.rank tag :=
    mem_incoming.2 ⟨rfl, requires, hrecv⟩
  obtain ⟨k, hk⟩ := List.mem_iff_getElem?.1 hmem
  have hlt := (List.getElem?_eq_some_iff.1 hk).1
  rw [← h.length_eq] at hlt
  refine ⟨(s.outgoing source receiver.rank tag)[k].1, source, receiver.rank, tag, k, ?_, ?_⟩
  · simp [List.getElem?_eq_getElem hlt]
  · simp [hk]

end Agrees

end Schedule

/-- The names of those operations among `ops` whose actions `p` selects, in order. The operations
are those of `rank` from the position `base` on. -/
def namesWhere (p : Action → Bool) (rank base : Nat) (ops : List Op) : List OpId :=
  (ops.zipIdx base).filterMap fun (op, index) => if p op.action then some ⟨rank, index⟩ else none

section Names

variable {p : Action → Bool} {rank base : Nat}

theorem namesWhere_cons_of_pos {op : Op} (h : p op.action = true) (ops : List Op) :
    namesWhere p rank base (op :: ops) = ⟨rank, base⟩ :: namesWhere p rank (base + 1) ops := by
  simp [namesWhere, h]

theorem namesWhere_cons_of_neg {op : Op} (h : p op.action = false) (ops : List Op) :
    namesWhere p rank base (op :: ops) = namesWhere p rank (base + 1) ops := by
  simp [namesWhere, h]

theorem namesWhere_of_all {ops : List Op} (h : ∀ op ∈ ops, p op.action = true) :
    namesWhere p rank base ops = Schedule.names rank base ops.length := by
  induction ops generalizing base with
  | nil => rfl
  | cons op ops ih =>
    rw [namesWhere_cons_of_pos (h op List.mem_cons_self),
      ih fun op hop => h op (List.mem_cons_of_mem _ hop), List.length_cons, Schedule.names_succ]

theorem namesWhere_of_none {ops : List Op} (h : ∀ op ∈ ops, p op.action = false) :
    namesWhere p rank base ops = [] := by
  rw [namesWhere, List.filterMap_eq_nil_iff]
  rintro ⟨op, index⟩ hmem
  simp [h op (List.fst_mem_of_mem_zipIdx hmem)]

theorem mem_namesWhere {ops : List Op} {id : OpId} :
    id ∈ namesWhere p rank 0 ops ↔
      id.rank = rank ∧ ∃ op, ops[id.index]? = some op ∧ p op.action = true := by
  simp only [namesWhere, List.mem_filterMap, Prod.exists, List.mem_zipIdx_iff_getElem?,
    Option.ite_none_right_eq_some, Option.some.injEq]
  constructor
  · rintro ⟨op, index, hop, hp, rfl⟩
    exact ⟨rfl, op, hop, hp⟩
  · rintro ⟨rfl, op, hop, hp⟩
    exact ⟨op, id.index, hop, hp, rfl⟩

end Names

namespace Schedule

variable {s : Schedule} {rank : Nat} {id : OpId}

/-- The sends of a rank, in order. -/
def sendsOf (s : Schedule) (rank : Nat) : List OpId :=
  namesWhere Action.isSend rank 0 (s.opsAt rank)

/-- The receives of a rank, in order. -/
def recvsOf (s : Schedule) (rank : Nat) : List OpId :=
  namesWhere Action.isRecv rank 0 (s.opsAt rank)

theorem mem_sendsOf :
    id ∈ s.sendsOf rank ↔ id.rank = rank ∧ ∃ op, s.op? id = some op ∧ op.action.isSend = true := by
  rw [sendsOf, mem_namesWhere]
  constructor <;> rintro ⟨rfl, h⟩ <;> simpa [op?_eq] using h

theorem mem_recvsOf :
    id ∈ s.recvsOf rank ↔ id.rank = rank ∧ ∃ op, s.op? id = some op ∧ op.action.isRecv = true := by
  rw [recvsOf, mem_namesWhere]
  constructor <;> rintro ⟨rfl, h⟩ <;> simpa [op?_eq] using h

end Schedule
end Collectives
