import Collectives.Proofs.CollectiveLoops
import Collectives.Proofs.Edits
import Collectives.Proofs.Handles
import Collectives.Proofs.PhaseRuns

/-!
# Phases as one chain

Sequential exchanges of one rank, each of which waits for what the one before left behind, are one
sequential exchange of all their pairs. So the phases of a rank form one chain, whatever their
number and even if some are empty; only the tags tell where one phase ends.
-/

namespace Collectives

/-! The same under another tag. -/

def Action.retag (tag : Tag) : Action → Action
  | .send peer size _ => .send peer size tag
  | .recv peer size _ => .recv peer size tag
  | .calc cost => .calc cost

def Op.retag (tag : Tag) (op : Op) : Op := { op with action := op.action.retag tag }

def Pair.retag (tag : Tag) (pair : Pair) : Pair := { pair with tag }

def Exchange.retag (tag : Tag) (ex : Exchange) : Exchange := { ex with tag }

/-- `made` with `tag` on all operations that `s` does not have. -/
def Schedule.retagAdded (s made : Schedule) (tag : Tag) : Schedule :=
  made.mapOps fun id op => if (s.op? id).isSome then op else op.retag tag

namespace Op

theorem retag_waitFor (tag : Tag) (op : Op) (dep : OpId) :
    (op.waitFor dep).retag tag = (op.retag tag).waitFor dep := by
  by_cases hmem : dep ∈ op.requires <;> simp [waitFor, retag, hmem]

theorem retag_foldl_waitFor (tag : Tag) (deps : List OpId) (op : Op) :
    (deps.foldl waitFor op).retag tag = deps.foldl waitFor (op.retag tag) := by
  induction deps generalizing op with
  | nil => rfl
  | cons dep deps ih => rw [List.foldl_cons, ih, retag_waitFor, List.foldl_cons]

end Op

section Chains

variable {c : Communicator} {owner base : Nat}

theorem Planned.retag_place (tag : Tag) (planned : Planned) :
    (planned.place c owner base).retag tag =
      Planned.place c owner base ⟨planned.action.retag tag, planned.waits⟩ := by
  obtain ⟨action, waits⟩ := planned
  rw [place, place, Op.retag_foldl_waitFor]
  cases action <;> rfl

theorem RankPlan.opsOn_link_retag (tag : Tag) (cost position : Nat) (handle : Option Wait)
    (pair : Pair) :
    (link cost position handle (pair.retag tag)).opsOn c owner base =
      ((link cost position handle pair).opsOn c owner base).map (·.retag tag) := by
  by_cases hcost : cost = 0
  · simp [link, opsOn, Pair.round, hcost, Planned.retag_place, Action.retag, Pair.retag]
  · simp [link, opsOn, Pair.round, hcost, Planned.retag_place, Action.retag, Pair.retag]

/-- Pairs under another tag become the same operations under that tag. -/
theorem RankPlan.opsOn_chained_retag (tag : Tag) (cost position : Nat) (handle : Option Wait)
    (pairs : List Pair) :
    (chained cost position handle (pairs.map (·.retag tag))).opsOn c owner base =
      ((chained cost position handle pairs).opsOn c owner base).map (·.retag tag) := by
  induction pairs generalizing position handle with
  | nil => rfl
  | cons pair pairs ih =>
    rw [List.map_cons, chained_cons, chained_cons, opsOn_append, opsOn_append, ih, List.map_append,
      opsOn_link_retag]

end Chains

namespace Exchange

open Build

/-- The pairs of `a` and then those of `b`, for the rank and under the tag of `a`. -/
def append (a b : Exchange) : Exchange where
  rank := a.rank
  sources := a.sources ++ b.sources
  destinations := a.destinations ++ b.destinations
  recvSizes := a.recvSizes ++ b.recvSizes
  sendSizes := a.sendSizes ++ b.sendSizes
  tag := a.tag

/-- All pairs of some exchanges in order, for one rank and under one tag. -/
def concat (rank : Nat) (tag : Tag) (exs : List Exchange) : Exchange :=
  exs.foldr (fun ex rest => append { ex with rank, tag } rest) ⟨rank, [], [], [], [], tag⟩

/-- Runs exchanges as phases, each under the tag and behind the handle that the phase gets. -/
def inPhases (c : Communicator) (cost : Nat) (exs : List Exchange) (p : Phases) : Build Phases :=
  exs.foldlM (fun p ex => p.phase fun tag last => sequential c (ex.retag tag) last cost) p

/-- The pairs of phases, whose tags are consecutive from `first` on. -/
def phasePairs : (first : Nat) → List Exchange → List Pair
  | _, [] => []
  | first, ex :: rest => (ex.retag (.ofNat first)).listed ++ phasePairs (first + 1) rest

section Lists

variable {a b ex : Exchange} {size rank : Nat} {tag : Tag} {exs : List Exchange}

theorem Valid.retag (h : ex.Valid size) (tag : Tag) : (ex.retag tag).Valid size :=
  ⟨h.destinations_length, h.recvSizes_length, h.sendSizes_length, h.rank_lt, h.source_lt,
    h.destination_lt⟩

theorem listed_retag (ex : Exchange) (tag : Tag) :
    (ex.retag tag).listed = ex.listed.map (·.retag tag) := by
  simp [listed, Exchange.retag, Pair.retag]

theorem Valid.append (ha : a.Valid size) (hb : b.Valid size) : (a.append b).Valid size where
  destinations_length := by
    simp [Exchange.append, ha.destinations_length, hb.destinations_length]
  recvSizes_length := by simp [Exchange.append, ha.recvSizes_length, hb.recvSizes_length]
  sendSizes_length := by simp [Exchange.append, ha.sendSizes_length, hb.sendSizes_length]
  rank_lt := ha.rank_lt
  source_lt := fun source hsource =>
    (List.mem_append.1 hsource).elim (ha.source_lt source) (hb.source_lt source)
  destination_lt := fun destination hdestination =>
    (List.mem_append.1 hdestination).elim (ha.destination_lt destination)
      (hb.destination_lt destination)

theorem Valid.listed_append (h : a.Valid size) (htag : b.tag = a.tag) :
    (a.append b).listed = a.listed ++ b.listed := by
  have hsources : a.sources.length = a.recvSizes.length := h.recvSizes_length.symm
  have hdestinations : a.destinations.length = a.sendSizes.length :=
    h.destinations_length.trans h.sendSizes_length.symm
  have hzips : (a.sources.zip a.recvSizes).length = (a.destinations.zip a.sendSizes).length := by
    simp [h.recvSizes_length, h.destinations_length, h.sendSizes_length]
  simp only [Exchange.append, listed, List.zip_append hsources, List.zip_append hdestinations,
    List.zip_append hzips, List.map_append, htag]

theorem concat_cons (ex : Exchange) (tag : Tag) (rest : List Exchange) :
    concat ex.rank tag (ex :: rest) = (ex.retag tag).append (concat ex.rank tag rest) := rfl

theorem tag_concat (rank : Nat) (tag : Tag) (exs : List Exchange) :
    (concat rank tag exs).tag = tag := by
  cases exs <;> rfl

theorem rank_concat (rank : Nat) (tag : Tag) (exs : List Exchange) :
    (concat rank tag exs).rank = rank := by
  cases exs <;> rfl

theorem valid_concat (hrank : rank < size) (hexs : ∀ ex ∈ exs, ex.Valid size ∧ ex.rank = rank)
    (tag : Tag) : (concat rank tag exs).Valid size := by
  induction exs with
  | nil => exact ⟨rfl, rfl, rfl, hrank, by simp [concat], by simp [concat]⟩
  | cons ex rest ih =>
    obtain ⟨hvalid, rfl⟩ := hexs ex List.mem_cons_self
    have hrest := ih fun other hother => hexs other (List.mem_cons_of_mem ex hother)
    exact concat_cons ex tag rest ▸ (hvalid.retag tag).append hrest

/-- The phases have the pairs of the concatenation, but for the tags. -/
theorem listed_concat (hexs : ∀ ex ∈ exs, ex.Valid size ∧ ex.rank = rank) (tag : Tag)
    (first : Nat) :
    (concat rank tag exs).listed = (phasePairs first exs).map (·.retag tag) := by
  induction exs generalizing first with
  | nil => rfl
  | cons ex rest ih =>
    obtain ⟨hvalid, rfl⟩ := hexs ex List.mem_cons_self
    have hrest := ih (fun other hother => hexs other (List.mem_cons_of_mem ex hother)) (first + 1)
    have htag : (concat ex.rank tag rest).tag = (ex.retag tag).tag := tag_concat ex.rank tag rest
    rw [concat_cons, (hvalid.retag tag).listed_append htag, hrest, phasePairs, List.map_append,
      listed_retag, listed_retag, List.map_map]
    rfl

end Lists

variable {c : Communicator} {s : Schedule}

theorem left_or_left (owner base count more : Nat) :
    (left owner base (count + more) none).or (left owner base count none) =
      left owner base (count + more) none := by
  unfold left
  by_cases hnone : count + more = 0
  · rw [if_pos hnone, if_pos (Nat.eq_zero_of_add_eq_zero_right hnone)]
    rfl
  · rw [if_neg hnone, Option.some_or]

/-- One chain after another that waits for it is one chain. -/
theorem runOn_sequential_append (hinside : c.Inside s) {a b : Exchange} (ha : a.Valid c.size)
    (hb : b.Valid c.size) (hrank : b.rank = a.rank) (htag : b.tag = a.tag) {last : Option OpId}
    (hlast : ∀ id ∈ last, (s.op? id).isSome = true) (cost : Nat) :
    ∃ handle made, (sequential c (a.append b) last cost).runOn s = (.ok handle, made) ∧
      (do sequential c b (← sequential c a last cost) cost : Build _).runOn s =
        (.ok handle, made) := by
  have hwhole := runOn_sequential hinside (ha.append hb) hlast cost
  have hbehind := (runOn_sequential_behind hinside hb hlast a.listed cost).1
  rw [hrank] at hbehind
  rw [ha.listed_append htag] at hwhole
  refine ⟨_, _, hwhole, ?_⟩
  simp only [runOn_bind, runOn_sequential hinside ha hlast]
  exact hbehind

/-- Phases that have tags left are carried out, behind whatever their rank has done before, and
their pairs go on with the chain. -/
theorem runOn_inPhases (hinside : c.Inside s) {rank : Nat} {exs : List Exchange}
    (hexs : ∀ ex ∈ exs, ex.Valid c.size ∧ ex.rank = rank) (cost : Nat) {first : Nat}
    (hfirst : first + exs.length ≤ Tag.last.toNat + 1) {p : Phases}
    (htag : p.tag = if first ≤ Tag.last.toNat then some (.ofNat first) else none)
    (done : List Pair) (hhandle : p.handle = left (c.member rank) (s.opsAt (c.member rank)).length
      (stride cost * done.length) none) :
    ∃ q : Phases, (inPhases c cost exs p).runOn (s.grow (c.member rank)
        ((RankPlan.chained cost 0 none done).opsOn c (c.member rank)
          (s.opsAt (c.member rank)).length)) =
        (.ok q, s.grow (c.member rank) ((RankPlan.chained cost 0 none
          (done ++ phasePairs first exs)).opsOn c (c.member rank)
            (s.opsAt (c.member rank)).length)) ∧
      q.handle = left (c.member rank) (s.opsAt (c.member rank)).length
        (stride cost * (done ++ phasePairs first exs).length) none ∧
      q.count = p.count + exs.length := by
  induction exs generalizing first p done with
  | nil =>
    refine ⟨p, ?_, ?_, rfl⟩
    · rw [phasePairs, List.append_nil]
      rfl
    · rw [phasePairs, List.append_nil, hhandle]
  | cons ex rest ih =>
    obtain ⟨hvalid, rfl⟩ := hexs ex List.mem_cons_self
    have hle : first ≤ Tag.last.toNat := by
      rw [List.length_cons] at hfirst
      omega
    have hnow : p.tag = some (.ofNat first) := htag.trans (if_pos hle)
    have hnone : ∀ id ∈ (none : Option OpId), (s.op? id).isSome = true := by simp
    obtain ⟨hbehind, -⟩ :=
      runOn_sequential_behind hinside (hvalid.retag (.ofNat first)) hnone done cost
    have hrank : (ex.retag (.ofNat first)).rank = ex.rank := rfl
    rw [hrank, ← hhandle, Option.map_none] at hbehind
    set next := p.advance (left (c.member ex.rank) (s.opsAt (c.member ex.rank)).length
      (stride cost * (done ++ (ex.retag (.ofNat first)).listed).length) none) with hnext
    have hnexttag : next.tag =
        if first + 1 ≤ Tag.last.toNat then some (.ofNat (first + 1)) else none := by
      rw [hnext, Phases.advance, hnow, Option.bind_some, Tag.next?_ofNat hle]
    have hnexthandle : next.handle = left (c.member ex.rank) (s.opsAt (c.member ex.rank)).length
        (stride cost * (done ++ (ex.retag (.ofNat first)).listed).length) none := by
      rw [hnext, Phases.advance, hhandle, List.length_append, Nat.mul_add, left_or_left]
    obtain ⟨q, hrun, hleft, hcount⟩ := ih
      (fun other hother => hexs other (List.mem_cons_of_mem ex hother))
      (by rw [List.length_cons] at hfirst; omega) hnexttag _ hnexthandle
    rw [List.append_assoc, ← phasePairs] at hrun hleft
    refine ⟨q, ?_, hleft, ?_⟩
    · simp only [inPhases, List.foldlM_cons, runOn_bind, Phases.runOn_phase hnow, hbehind]
      exact hrun
    · rw [hcount, hnext, Phases.advance, List.length_cons, Nat.add_assoc, Nat.add_comm 1]

theorem retag_eq_self {tag : Tag} {id : OpId} {op : Op} (hop : s.op? id = some op) :
    (if (s.op? id).isSome then op else op.retag tag) = op :=
  if_pos (by rw [hop]; rfl)

/-- Carried out from the beginning, phases are the exchange of all their pairs, but for the tags. -/
theorem runOn_phases (hinside : c.Inside s) {rank : Nat} (hrank : rank < c.size)
    {exs : List Exchange} (hexs : ∀ ex ∈ exs, ex.Valid c.size ∧ ex.rank = rank) (cost : Nat)
    (tag : Tag) {first : Tag} (hfirst : first.toNat + exs.length ≤ Tag.last.toNat + 1) :
    ∃ phases made, (inPhases c cost exs (.start first)).runOn s = (.ok phases, made) ∧
      phases.count = exs.length ∧
      (sequential c (concat rank tag exs) none cost).runOn s =
        (.ok phases.handle, s.retagAdded made tag) := by
  have howner := hinside _ (c.member_mem hrank)
  have hstart : (Phases.start first).tag =
      if first.toNat ≤ Tag.last.toNat then some (.ofNat first.toNat) else none := by
    rw [if_pos (Tag.toNat_le_last first), UInt32.ofNat_toNat]
    rfl
  obtain ⟨phases, hrun, hhandle, hcount⟩ := runOn_inPhases hinside hexs cost hfirst hstart [] rfl
  rw [RankPlan.chained, RankPlan.opsOn_nil, Schedule.grow_nil] at hrun
  have hwhole := runOn_sequential_none hinside (valid_concat hrank hexs tag) cost
  rw [rank_concat, listed_concat hexs tag first.toNat, List.length_map] at hwhole
  refine ⟨phases, _, hrun, hcount.trans (Nat.zero_add _), ?_⟩
  rw [hwhole, hhandle, Schedule.retagAdded,
    Schedule.mapOps_grow_new howner (fun _ _ hop => retag_eq_self hop)
      fun id op hop => if_neg (by rw [hop]; decide), RankPlan.opsOn_chained_retag]
  rfl

/-- A sequential exchange of some pairs and then others is the exchange of the ones and then, behind
what it left, of the others. So the phases of a rank are one chain: run in order, with tags left for
all of them, they leave the operations, the dependencies and the handle of one sequential exchange
of all their pairs, but for the tags of the operations. -/
theorem phases_chain (hinside : c.Inside s) (cost : Nat) :
    (∀ ex last, (sequentialLoop c ex last cost).runOn s = (sequential c ex last cost).runOn s) ∧
    (∀ (a b : Exchange) (last : Option OpId), a.Valid c.size → b.Valid c.size →
      b.rank = a.rank → b.tag = a.tag → (∀ id ∈ last, (s.op? id).isSome = true) →
      ∃ handle made, (sequential c (a.append b) last cost).runOn s = (.ok handle, made) ∧
        (do sequential c b (← sequential c a last cost) cost : Build _).runOn s =
          (.ok handle, made)) ∧
    ∀ (rank : Nat) (tag first : Tag) (exs : List Exchange), rank < c.size →
      (∀ ex ∈ exs, ex.Valid c.size ∧ ex.rank = rank) →
      first.toNat + exs.length ≤ Tag.last.toNat + 1 →
      ∃ phases made, (inPhases c cost exs (.start first)).runOn s = (.ok phases, made) ∧
        phases.count = exs.length ∧
        (sequential c (concat rank tag exs) none cost).runOn s =
          (.ok phases.handle, s.retagAdded made tag) :=
  ⟨fun ex last => (runs_sequential hinside ex last cost).2,
    fun _ _ _ ha hb hrank htag hlast => runOn_sequential_append hinside ha hb hrank htag hlast cost,
    fun _ tag _ _ hrank hexs hfirst => runOn_phases hinside hrank hexs cost tag hfirst⟩

/-- Three phases under the last three tags, of which the second is empty. -/
theorem phases_chain_two :
    let exs : List Exchange :=
      [⟨0, [1], [1], [4], [4], 0⟩, ⟨0, [], [], [], [], 0⟩, ⟨0, [1, 1], [1, 1], [5, 6], [7, 8], 0⟩]
    (Communicator.world 2).Inside (.idle 2) ∧ (∀ ex ∈ exs, ex.Valid 2 ∧ ex.rank = 0) ∧
      (Tag.last - 2).toNat + exs.length ≤ Tag.last.toNat + 1 ∧
      ∃ phases made,
        (inPhases (.world 2) 3 exs (.start (Tag.last - 2))).runOn (.idle 2) = (.ok phases, made) ∧
        phases.count = 3 ∧
        (sequential (.world 2) (concat 0 7 exs) none 3).runOn (.idle 2) =
          (.ok phases.handle, (Schedule.idle 2).retagAdded made 7) := by
  intro exs
  have hinside := Communicator.inside_world 2
  have hexs : ∀ ex ∈ exs, ex.Valid 2 ∧ ex.rank = 0 := by
    intro ex hex
    simp only [exs, List.mem_cons, List.not_mem_nil, or_false] at hex
    rcases hex with rfl | rfl | rfl <;> exact ⟨valid_iff.2 ⟨_, rfl⟩, rfl⟩
  have htags : (Tag.last - 2).toNat + exs.length ≤ Tag.last.toNat + 1 := by decide
  exact ⟨hinside, hexs, htags,
    (phases_chain hinside 3).2.2 0 7 (Tag.last - 2) exs (by decide) hexs htags⟩

end Exchange
end Collectives
