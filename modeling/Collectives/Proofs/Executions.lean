import Collectives.Proofs.Orders
import Mathlib.Algebra.Order.Group.Multiset
import Mathlib.Data.List.Induction
import Mathlib.Logic.Function.Basic

/-!
# Executions on data

Ranks that hold a value in every chunk run the operations of a schedule in some order. A send takes
the values that its rank holds at that time along, its receive adds them or puts them in place. In a
schedule of rounds no order matters: if no rank can overwrite what it has still to send, then every
order leaves the values that the rounds have one after another.
-/

namespace Collectives

/-- What messages carry: the chunks that the `k`-th send of a rank under a tag takes along, and
whether the receives under a tag add the values that they get. If not, they put them in place. -/
structure Meaning where
  carried : (tag : Tag) → (rank k : Nat) → Finset Nat
  adds : Tag → Bool

/-- The values that every rank holds in every chunk, and those that every send took along. A value
is the collection of the ranks that have contributed to it, each as often as it has. -/
structure Memory where
  held : (rank chunk : Nat) → Multiset Nat
  sent : (sender : OpId) → (chunk : Nat) → Option (Multiset Nat)

namespace Memory

def start : Memory where
  held rank _ := {rank}
  sent _ _ := none

def send (memory : Memory) (sender : OpId) (values : Nat → Option (Multiset Nat)) : Memory where
  held := memory.held
  sent := Function.update memory.sent sender values

def put (memory : Memory) (rank : Nat) (values : Nat → Multiset Nat) : Memory where
  held := Function.update memory.held rank values
  sent := memory.sent

variable (memory : Memory)

@[simp] theorem sent_send_self (sender : OpId) (values : Nat → Option (Multiset Nat)) :
    (memory.send sender values).sent sender = values :=
  Function.update_self _ _ _

@[simp] theorem sent_send_of_ne {sender other : OpId} (h : other ≠ sender)
    (values : Nat → Option (Multiset Nat)) :
    (memory.send sender values).sent other = memory.sent other :=
  Function.update_of_ne h _ _

@[simp] theorem held_put_self (rank : Nat) (values : Nat → Multiset Nat) :
    (memory.put rank values).held rank = values :=
  Function.update_self _ _ _

@[simp] theorem held_put_of_ne {rank other : Nat} (h : other ≠ rank) (values : Nat → Multiset Nat) :
    (memory.put rank values).held other = memory.held other :=
  Function.update_of_ne h _ _

end Memory

/-- What a chunk holds after a message, which may have a value for it. -/
def merge (adds : Bool) (held : Multiset Nat) : Option (Multiset Nat) → Multiset Nat
  | some value => if adds then held + value else value
  | none => held

namespace Schedule

/-- How many sends the rank has under `tag` before the operation `id`. -/
def ordinal (s : Schedule) (id : OpId) (tag : Tag) : Nat :=
  ((s.opsAt id.rank).take id.index).countP fun op =>
    op.action.isSend && decide (op.action.tag? = some tag)

def cargo (s : Schedule) (m : Meaning) (id : OpId) (tag : Tag) : Finset Nat :=
  m.carried tag id.rank (s.ordinal id tag)

/-- What the operation `id` does to the values. -/
def exec (s : Schedule) (m : Meaning) (memory : Memory) (id : OpId) : Memory :=
  match (s.op? id).map Op.action with
  | some (.send _ _ tag) =>
    memory.send id fun chunk =>
      if chunk ∈ s.cargo m id tag then some (memory.held id.rank chunk) else none
  | some (.recv _ _ tag) =>
    memory.put id.rank fun chunk =>
      merge (m.adds tag) (memory.held id.rank chunk)
        ((s.sender? id).bind fun sender => memory.sent sender chunk)
  | _ => memory

def execute (s : Schedule) (m : Meaning) (order : List OpId) : Memory :=
  order.foldl (s.exec m) Memory.start

theorem execute_append (s : Schedule) (m : Meaning) (done : List OpId) (id : OpId) :
    s.execute m (done ++ [id]) = s.exec m (s.execute m done) id := by
  rw [execute, execute, List.foldl_append]
  rfl

end Schedule

/-- Rounds in which every rank below `ranks` sends once and receives once. The operations of a rank
in one round lie `width` behind those in the round before; its receive is from `source`. The send of
a round is the one with the number `place` under its tag. -/
structure Rounds where
  ranks : Nat
  count : Nat
  width : Nat
  source : (rank round : Nat) → Nat
  tag : (round : Nat) → Tag
  place : (round : Nat) → Nat

namespace Rounds

variable (p : Rounds) (m : Meaning)

def sendId (rank round : Nat) : OpId := ⟨rank, p.width * round⟩

def recvId (rank round : Nat) : OpId := ⟨rank, p.width * round + 1⟩

def carried (rank round : Nat) : Finset Nat := m.carried (p.tag round) rank (p.place round)

/-- The values of the ranks after a number of rounds, when all ranks make each round together. -/
def value : (round rank chunk : Nat) → Multiset Nat
  | 0, rank, _ => {rank}
  | round + 1, rank, chunk =>
    merge (m.adds (p.tag round)) (value round rank chunk)
      (if chunk ∈ p.carried m (p.source rank round) round then
        some (value round (p.source rank round) chunk)
      else none)

variable {p m}

theorem recvId_inj (hwidth : 0 < p.width) {rank rank' round round' : Nat} :
    p.recvId rank round = p.recvId rank' round' ↔ rank = rank' ∧ round = round' := by
  simp [recvId, Nat.mul_right_inj hwidth.ne']

theorem sendId_inj (hwidth : 0 < p.width) {rank rank' round round' : Nat} :
    p.sendId rank round = p.sendId rank' round' ↔ rank = rank' ∧ round = round' := by
  simp [sendId, Nat.mul_right_inj hwidth.ne']

theorem value_of_notMem {rank chunk round : Nat}
    (h : chunk ∉ p.carried m (p.source rank round) round) :
    p.value m (round + 1) rank chunk = p.value m round rank chunk := by
  rw [value, if_neg h, merge]

theorem value_of_mem {rank chunk round : Nat}
    (h : chunk ∈ p.carried m (p.source rank round) round) :
    p.value m (round + 1) rank chunk =
      if m.adds (p.tag round) then
        p.value m round rank chunk + p.value m round (p.source rank round) chunk
      else p.value m round (p.source rank round) chunk := by
  rw [value, if_pos h, merge]

theorem value_stable {rank chunk round later : Nat} (hle : round ≤ later)
    (h : ∀ between, round ≤ between → between < later →
      chunk ∉ p.carried m (p.source rank between) between) :
    p.value m later rank chunk = p.value m round rank chunk := by
  induction later, hle using Nat.le_induction with
  | base => rfl
  | succ later hle ih =>
    rw [value_of_notMem (h later hle (Nat.lt_succ_self later))]
    exact ih fun between hlow hhigh => h between hlow (Nat.lt_succ_of_lt hhigh)

end Rounds

/-- A schedule of rounds: beside them it only computes, the messages of a round are matched with
each other, and what a rank does in a round waits for its receive in the round before. -/
structure Schedule.Lockstep (s : Schedule) (p : Rounds) : Prop where
  width : 0 < p.width
  source_lt : ∀ rank < p.ranks, ∀ round < p.count, p.source rank round < p.ranks
  send : ∀ rank < p.ranks, ∀ round < p.count, ∃ peer size requires,
    s.op? (p.sendId rank round) = some ⟨.send peer size (p.tag round), requires⟩
  recv : ∀ rank < p.ranks, ∀ round < p.count, ∃ peer size requires,
    s.op? (p.recvId rank round) = some ⟨.recv peer size (p.tag round), requires⟩
  only : ∀ id op, s.op? id = some op → op.action.peer?.isSome = true →
    ∃ rank < p.ranks, ∃ round < p.count, id = p.sendId rank round ∨ id = p.recvId rank round
  meets : ∀ rank < p.ranks, ∀ round < p.count,
    s.Matched (p.sendId (p.source rank round) round) (p.recvId rank round)
  chained : ∀ rank < p.ranks, ∀ round, round + 1 < p.count →
    Relation.TransGen s.Causes (p.recvId rank round) (p.sendId rank (round + 1)) ∧
      Relation.TransGen s.Causes (p.recvId rank round) (p.recvId rank (round + 1))
  ordinal : ∀ rank < p.ranks, ∀ round < p.count,
    s.ordinal (p.sendId rank round) (p.tag round) = p.place round

/-- A rank receives a chunk that it sends in the same round or in an earlier one only after it has
sent it, in every order. -/
def Schedule.RaceFree (s : Schedule) (p : Rounds) (m : Meaning) : Prop :=
  ∀ rank < p.ranks, ∀ round later, round ≤ later → later < p.count →
    ∀ chunk ∈ p.carried m rank round, chunk ∈ p.carried m (p.source rank later) later →
      Relation.TransGen s.Causes (p.sendId rank round) (p.recvId rank later)

/-- The values after the operations `done`: every rank has those of the rounds whose receives it
has made, and every send took along the values that its rank has at the start of its round. -/
structure Schedule.Tracks (p : Rounds) (m : Meaning) (done : List OpId)
    (memory : Memory) (received : Nat → Nat) : Prop where
  bound : ∀ rank < p.ranks, received rank ≤ p.count
  recv_mem : ∀ rank < p.ranks, ∀ round < p.count,
    p.recvId rank round ∈ done ↔ round < received rank
  held : ∀ rank < p.ranks, ∀ chunk,
    memory.held rank chunk = p.value m (received rank) rank chunk
  sent : ∀ rank < p.ranks, ∀ round < p.count, p.sendId rank round ∈ done → ∀ chunk,
    memory.sent (p.sendId rank round) chunk =
      if chunk ∈ p.carried m rank round then some (p.value m round rank chunk) else none

namespace Schedule

variable {s : Schedule} {p : Rounds} {m : Meaning} {order done rest : List OpId} {memory : Memory}
  {received : Nat → Nat}

namespace Lockstep

theorem sendId_ne_recvId (hl : s.Lockstep p) {rank rank' round round' : Nat}
    (hrank : rank < p.ranks) (hround : round < p.count) (hrank' : rank' < p.ranks)
    (hround' : round' < p.count) : p.sendId rank round ≠ p.recvId rank' round' := by
  intro heq
  obtain ⟨peer, size, requires, hsend⟩ := hl.send rank hrank round hround
  obtain ⟨peer', size', requires', hrecv⟩ := hl.recv rank' hrank' round' hround'
  rw [heq, hrecv] at hsend
  simp at hsend

theorem cases_id (hl : s.Lockstep p) {id : OpId} {op : Op} (hop : s.op? id = some op) :
    (∃ rank < p.ranks, ∃ round < p.count, id = p.sendId rank round) ∨
      (∃ rank < p.ranks, ∃ round < p.count, id = p.recvId rank round) ∨
        ∃ cost, op.action = .calc cost := by
  by_cases hpeer : op.action.peer?.isSome = true
  · obtain ⟨rank, hrank, round, hround, hid | hid⟩ := hl.only id op hop hpeer
    · exact Or.inl ⟨rank, hrank, round, hround, hid⟩
    · exact Or.inr (Or.inl ⟨rank, hrank, round, hround, hid⟩)
  · obtain ⟨action, requires⟩ := op
    rcases action with _ | _ | cost
    · exact absurd rfl hpeer
    · exact absurd rfl hpeer
    · exact Or.inr (Or.inr ⟨cost, rfl⟩)

/-- When the send or the receive of a round runs, the receives of all rounds before it have run. -/
theorem le_received (hl : s.Lockstep p) (h : s.Order order) {id : OpId}
    (hsplit : order = done ++ id :: rest) (ht : Tracks p m done memory received)
    {rank round : Nat} (hrank : rank < p.ranks) (hround : round < p.count)
    (hid : id = p.sendId rank round ∨ id = p.recvId rank round) : round ≤ received rank := by
  cases round with
  | zero => exact Nat.zero_le _
  | succ round =>
    have hchain := hl.chained rank hrank round hround
    have hbefore : p.recvId rank round ∈ done := by
      rcases hid with rfl | rfl
      · exact h.mem_of_transGen hsplit hchain.1
      · exact h.mem_of_transGen hsplit hchain.2
    exact (ht.recv_mem rank hrank round (by omega)).1 hbefore

theorem tracks_send (hl : s.Lockstep p) (hfree : s.RaceFree p m) (h : s.Order order)
    {rank round : Nat} (hrank : rank < p.ranks) (hround : round < p.count)
    (hsplit : order = done ++ p.sendId rank round :: rest) (ht : Tracks p m done memory received) :
    Tracks p m (done ++ [p.sendId rank round]) (s.exec m memory (p.sendId rank round))
      received := by
  obtain ⟨peer, size, requires, hop⟩ := hl.send rank hrank round hround
  have hle := hl.le_received h hsplit ht hrank hround (Or.inl rfl)
  have hexec : s.exec m memory (p.sendId rank round) =
      memory.send (p.sendId rank round) fun chunk =>
        if chunk ∈ p.carried m rank round then some (memory.held rank chunk) else none := by
    simp only [exec, hop, Option.map_some, cargo, hl.ordinal rank hrank round hround]
    rfl
  -- A chunk that is sent has not been received since the round of the send.
  have hvalue : ∀ chunk ∈ p.carried m rank round,
      memory.held rank chunk = p.value m round rank chunk := by
    intro chunk hchunk
    rw [ht.held rank hrank chunk]
    apply Rounds.value_stable hle
    intro later hlow hhigh hcarried
    have hlater := Nat.lt_of_lt_of_le hhigh (ht.bound rank hrank)
    have hdone := (ht.recv_mem rank hrank later hlater).2 hhigh
    have hcause := hfree rank hrank round later hlow hlater chunk hchunk hcarried
    exact h.notMem_done hsplit (h.mem_of_mem hsplit hdone hcause)
  refine ⟨ht.bound, ?_, ?_, ?_⟩
  · intro other hother k hk
    have hne := hl.sendId_ne_recvId hrank hround hother hk
    rw [List.mem_append, List.mem_singleton, ht.recv_mem other hother k hk]
    simp [hne.symm]
  · rw [hexec]
    exact ht.held
  · intro other hother k hk hmem chunk
    rw [hexec]
    by_cases hsame : p.sendId other k = p.sendId rank round
    · obtain ⟨rfl, rfl⟩ := (Rounds.sendId_inj hl.width).1 hsame
      rw [Memory.sent_send_self]
      by_cases hchunk : chunk ∈ p.carried m other k
      · rw [if_pos hchunk, if_pos hchunk, hvalue chunk hchunk]
      · rw [if_neg hchunk, if_neg hchunk]
    · have hdone : p.sendId other k ∈ done := by simpa [hsame] using hmem
      rw [Memory.sent_send_of_ne memory hsame]
      exact ht.sent other hother k hk hdone chunk

theorem tracks_recv (hl : s.Lockstep p) (h : s.Order order)
    {rank round : Nat} (hrank : rank < p.ranks) (hround : round < p.count)
    (hsplit : order = done ++ p.recvId rank round :: rest) (ht : Tracks p m done memory received) :
    Tracks p m (done ++ [p.recvId rank round]) (s.exec m memory (p.recvId rank round))
      (Function.update received rank (round + 1)) := by
  obtain ⟨peer, size, requires, hop⟩ := hl.recv rank hrank round hround
  have hmeets := hl.meets rank hrank round hround
  have hsource := hl.source_lt rank hrank round hround
  have hsent : p.sendId (p.source rank round) round ∈ done :=
    h.respects _ _ _ hsplit _ (Or.inr hmeets)
  -- A rank makes its receives in the order of their rounds.
  have hreceived : received rank = round := by
    have hle := hl.le_received h hsplit ht hrank hround (Or.inr rfl)
    have hnot : ¬round < received rank := fun hlt =>
      h.notMem_done hsplit ((ht.recv_mem rank hrank round hround).2 hlt)
    omega
  have hexec : s.exec m memory (p.recvId rank round) =
      memory.put rank (p.value m (round + 1) rank) := by
    simp only [exec, hop, Option.map_some, sender?_eq_some.2 hmeets, Option.bind_some,
      ht.sent _ hsource round hround hsent, Rounds.value]
    rw [show (p.recvId rank round).rank = rank from rfl]
    simp only [ht.held rank hrank, hreceived]
  refine ⟨?_, ?_, ?_, ?_⟩
  · intro other hother
    by_cases hsame : other = rank
    · subst hsame
      rw [Function.update_self]
      exact hround
    · rw [Function.update_of_ne hsame]
      exact ht.bound other hother
  · intro other hother k hk
    rw [List.mem_append, List.mem_singleton, ht.recv_mem other hother k hk,
      Rounds.recvId_inj hl.width]
    by_cases hsame : other = rank
    · subst hsame
      rw [Function.update_self, hreceived]
      omega
    · simp [hsame]
  · intro other hother chunk
    rw [hexec]
    by_cases hsame : other = rank
    · subst hsame
      rw [Memory.held_put_self, Function.update_self]
    · rw [Memory.held_put_of_ne memory hsame, Function.update_of_ne hsame]
      exact ht.held other hother chunk
  · intro other hother k hk hmem chunk
    have hne := hl.sendId_ne_recvId hother hk hrank hround
    have hdone : p.sendId other k ∈ done := by simpa [hne] using hmem
    rw [hexec]
    exact ht.sent other hother k hk hdone chunk

theorem tracks_calc (hl : s.Lockstep p) {id : OpId} {op : Op} (hop : s.op? id = some op)
    {cost : Nat} (hcalc : op.action = .calc cost) (ht : Tracks p m done memory received) :
    Tracks p m (done ++ [id]) (s.exec m memory id) received := by
  have hexec : s.exec m memory id = memory := by
    simp only [exec, hop, Option.map_some, hcalc]
  have hrecv : ∀ rank < p.ranks, ∀ round < p.count, p.recvId rank round ≠ id := by
    rintro rank hrank round hround rfl
    obtain ⟨peer, size, requires, hrecv⟩ := hl.recv rank hrank round hround
    obtain rfl := Option.some.inj (hop.symm.trans hrecv)
    cases hcalc
  have hsend : ∀ rank < p.ranks, ∀ round < p.count, p.sendId rank round ≠ id := by
    rintro rank hrank round hround rfl
    obtain ⟨peer, size, requires, hsend⟩ := hl.send rank hrank round hround
    obtain rfl := Option.some.inj (hop.symm.trans hsend)
    cases hcalc
  rw [hexec]
  refine ⟨ht.bound, ?_, ht.held, ?_⟩
  · intro rank hrank round hround
    rw [List.mem_append, List.mem_singleton, ht.recv_mem rank hrank round hround]
    simp [hrecv rank hrank round hround]
  · intro rank hrank round hround hmem
    have hdone : p.sendId rank round ∈ done := by
      simpa [hsend rank hrank round hround] using hmem
    exact ht.sent rank hrank round hround hdone

/-- What a rank does in a round comes after its receives in all rounds before. -/
theorem transGen_chained (hl : s.Lockstep p) {rank round later : Nat} (hrank : rank < p.ranks)
    (hlt : round < later) (hlater : later < p.count) :
    Relation.TransGen s.Causes (p.recvId rank round) (p.sendId rank later) ∧
      Relation.TransGen s.Causes (p.recvId rank round) (p.recvId rank later) := by
  induction later, hlt using Nat.le_induction with
  | base => exact hl.chained rank hrank round hlater
  | succ later hlt ih =>
    have hbefore := (ih (Nat.lt_of_succ_lt hlater)).2
    obtain ⟨hsend, hrecv⟩ := hl.chained rank hrank later hlater
    exact ⟨hbefore.trans hsend, hbefore.trans hrecv⟩

/-- A way of messages through the rounds, each sent by the rank that received the one before. -/
theorem transGen_way (hl : s.Lockstep p) (way : Nat → Nat) {round later : Nat} (hle : round ≤ later)
    (hlater : later < p.count) (hranks : ∀ i, round ≤ i → i ≤ later → way i < p.ranks)
    (hnext : ∀ i, round ≤ i → i < later → p.source (way (i + 1)) (i + 1) = way i) :
    Relation.TransGen s.Causes (p.sendId (p.source (way round) round) round)
      (p.recvId (way later) later) := by
  induction later, hle using Nat.le_induction with
  | base =>
    have hhere := hranks round (Nat.le_refl _) (Nat.le_refl _)
    exact .single (Or.inr (hl.meets _ hhere _ hlater))
  | succ later hle ih =>
    have hbefore := ih (Nat.lt_of_succ_lt hlater) (fun i hlow hhigh => hranks i hlow (by omega))
      fun i hlow hhigh => hnext i hlow (by omega)
    have hhere := hranks later hle (Nat.le_succ later)
    have hthere := hranks (later + 1) (Nat.le_succ_of_le hle) (Nat.le_refl _)
    have hmeets := hl.meets _ hthere _ hlater
    rw [hnext later hle (Nat.lt_succ_self later)] at hmeets
    exact (hbefore.trans (hl.chained _ hhere later hlater).1).tail (Or.inr hmeets)

theorem tracks_start (p : Rounds) (m : Meaning) :
    Tracks p m [] Memory.start fun _ => 0 where
  bound := fun _ _ => Nat.zero_le _
  recv_mem := by simp
  held := fun _ _ _ => rfl
  sent := by simp

theorem tracks_step (hl : s.Lockstep p) (hfree : s.RaceFree p m) (h : s.Order order) {id : OpId}
    (hsplit : order = done ++ id :: rest) (ht : Tracks p m done memory received) :
    ∃ received, Tracks p m (done ++ [id]) (s.exec m memory id) received := by
  have hthere : (s.op? id).isSome = true := (h.complete id).1 (by simp [hsplit])
  obtain ⟨op, hop⟩ := Option.isSome_iff_exists.1 hthere
  rcases hl.cases_id hop with
    ⟨rank, hrank, round, hround, rfl⟩ | ⟨rank, hrank, round, hround, rfl⟩ | ⟨cost, hcalc⟩
  · exact ⟨_, hl.tracks_send hfree h hrank hround hsplit ht⟩
  · exact ⟨_, hl.tracks_recv h hrank hround hsplit ht⟩
  · exact ⟨_, hl.tracks_calc hop hcalc ht⟩

theorem tracks_execute (hl : s.Lockstep p) (hfree : s.RaceFree p m) (h : s.Order order)
    (hsplit : order = done ++ rest) :
    ∃ received, Tracks p m done (s.execute m done) received := by
  induction done using List.reverseRecOn generalizing rest with
  | nil => exact ⟨_, tracks_start p m⟩
  | append_singleton done id ih =>
    have hbefore : order = done ++ id :: rest := by simpa using hsplit
    obtain ⟨received, ht⟩ := ih hbefore
    rw [execute_append]
    exact hl.tracks_step hfree h hbefore ht

/-- Every order leaves the values that the rounds have one after another. -/
theorem execute_eq (hl : s.Lockstep p) (hfree : s.RaceFree p m) (h : s.Order order) {rank : Nat}
    (hrank : rank < p.ranks) (chunk : Nat) :
    (s.execute m order).held rank chunk = p.value m p.count rank chunk := by
  obtain ⟨received, ht⟩ := hl.tracks_execute hfree h (List.append_nil order).symm
  have hall : received rank = p.count := by
    by_contra hne
    have hlt := Nat.lt_of_le_of_ne (ht.bound rank hrank) hne
    obtain ⟨peer, size, requires, hop⟩ := hl.recv rank hrank (received rank) hlt
    have hmem : p.recvId rank (received rank) ∈ order := (h.complete _).2 (by simp [hop])
    exact Nat.lt_irrefl _ ((ht.recv_mem rank hrank _ hlt).1 hmem)
  rw [ht.held rank hrank, hall]

end Lockstep
end Schedule
end Collectives
