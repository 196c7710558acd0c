import Collectives.Proofs.Calls
import Collectives.Proofs.World

/-!
# Relocation

A collective does the same wherever it is placed: a call appends to the ranks of its communicator
what the collective is on a world of that size, with ranks renamed and positions moved behind the
operations that were there. So nothing else of the schedule matters to a call, and calls on disjoint
communicators commute.
-/

namespace Collectives

/-- The name, in a schedule that `s` has grown to, of an operation of a collective that is placed on
`c`. -/
def OpId.relocate (c : Communicator) (s : Schedule) (id : OpId) : OpId :=
  ⟨c.member id.rank, id.index + (s.opsAt (c.member id.rank)).length⟩

def Op.relocate (c : Communicator) (s : Schedule) (op : Op) : Op :=
  ⟨op.action.mapPeer c.member, op.requires.map (·.relocate c s)⟩

/-- The schedule `next` is `s` with the operations of `made` appended: those of each local rank
behind those of the member with that rank. -/
structure Schedule.Hosts (s : Schedule) (c : Communicator) (made next : Schedule) : Prop where
  rankCount_eq : next.rankCount = s.rankCount
  member : ∀ rank < c.size,
    next.opsAt (c.member rank) =
      s.opsAt (c.member rank) ++ (made.opsAt rank).map (·.relocate c s)
  other : ∀ owner ∉ c.members, next.opsAt owner = s.opsAt owner

section Relocate

variable {c : Communicator} {s : Schedule}

/-- Names of one rank stay different. -/
theorem OpId.relocate_inj {a b : OpId} (h : a.rank = b.rank) :
    a.relocate c s = b.relocate c s ↔ a = b := by
  obtain ⟨rank, i⟩ := a
  obtain ⟨rank', j⟩ := b
  obtain rfl : rank = rank' := h
  simp [relocate]

/-- A dependency within a rank is kept once before and after relocating. -/
theorem Op.relocate_waitFor {op : Op} {dep : OpId} (h : ∀ id ∈ op.requires, id.rank = dep.rank) :
    (op.waitFor dep).relocate c s = (op.relocate c s).waitFor (dep.relocate c s) := by
  have hmem : dep.relocate c s ∈ (op.relocate c s).requires ↔ dep ∈ op.requires := by
    constructor
    · intro hin
      obtain ⟨id, hid, hsame⟩ := List.mem_map.1 hin
      rwa [← (OpId.relocate_inj (h id hid)).1 hsame]
    · exact List.mem_map_of_mem
  unfold waitFor
  by_cases hin : dep ∈ op.requires
  · rw [if_pos hin, if_pos (hmem.2 hin)]
  · rw [if_neg hin, if_neg (fun hin' => hin (hmem.1 hin'))]
    simp [relocate]

theorem Op.relocate_foldl_waitFor {owner : Nat} (deps : List OpId) (op : Op)
    (hop : ∀ id ∈ op.requires, id.rank = owner) (hdeps : ∀ dep ∈ deps, dep.rank = owner) :
    (deps.foldl waitFor op).relocate c s =
      (deps.map (·.relocate c s)).foldl waitFor (op.relocate c s) := by
  induction deps generalizing op with
  | nil => rfl
  | cons dep deps ih =>
    have hdep := hdeps dep (by simp)
    have hgrown : ∀ id ∈ (op.waitFor dep).requires, id.rank = owner := by
      intro id hid
      rcases ((foldl_waitFor [dep] op).2 id).1 hid with hold | hnew
      · exact hop id hold
      · rw [List.mem_singleton.1 hnew, hdep]
    rw [List.foldl_cons, ih _ hgrown fun d hd => hdeps d (by simp [hd]), List.map_cons,
      List.foldl_cons, relocate_waitFor fun id hid => (hop id hid).trans hdep.symm]

/-- A planned operation that waits for its own plan only becomes, on a member, what it becomes on
the world, relocated. -/
theorem Planned.relocate_place {rank : Nat} {planned : Planned}
    (hpeer : ∀ peer, planned.action.peer? = some peer → peer < c.size)
    (hwaits : ∀ wait ∈ planned.waits, ∃ earlier, wait = .own earlier) :
    (planned.place (.world c.size) rank 0).relocate c s =
      planned.place c (c.member rank) (s.opsAt (c.member rank)).length := by
  have hown : ∀ dep ∈ planned.waits.map (·.resolve rank 0), dep.rank = rank := by
    intro dep hdep
    obtain ⟨wait, hwait, rfl⟩ := List.mem_map.1 hdep
    obtain ⟨earlier, rfl⟩ := hwaits wait hwait
    rfl
  have hresolve : (planned.waits.map (·.resolve rank 0)).map (·.relocate c s) =
      planned.waits.map (·.resolve (c.member rank) (s.opsAt (c.member rank)).length) := by
    rw [List.map_map]
    apply List.map_congr_left
    intro wait hwait
    obtain ⟨earlier, rfl⟩ := hwaits wait hwait
    simp [Wait.resolve, OpId.relocate, Nat.add_comm]
  rw [place, Op.relocate_foldl_waitFor _ _ (by simp) hown, hresolve, place,
    Schedule.mapPeer_world hpeer]
  rfl

theorem RankPlan.relocate_opsOn {plans : Nat → RankPlan} {level : Nat → Nat → Nat}
    (hc : RankPlan.Coherent c.size plans level) {rank : Nat} (hrank : rank < c.size) :
    ((plans rank).opsOn (.world c.size) rank 0).map (·.relocate c s) =
      (plans rank).opsOn c (c.member rank) (s.opsAt (c.member rank)).length := by
  rw [opsOn, opsOn, List.map_map]
  apply List.map_congr_left
  intro planned hmem
  obtain ⟨position, hget⟩ := List.mem_iff_getElem?.1 hmem
  apply Planned.relocate_place
  · exact fun peer hpeer => (hc.peers rank hrank planned hmem peer hpeer).1
  · intro wait hwait
    obtain ⟨earlier, -, rfl, -⟩ := hc.rising rank hrank position planned hget wait hwait
    exact ⟨earlier, rfl⟩

/-- Coherent plans, placed on distinct members, are what they are on the world, relocated. -/
theorem Schedule.hosts_placed {plans : Nat → RankPlan} {level : Nat → Nat → Nat}
    (hc : RankPlan.Coherent c.size plans level) (hnodup : c.members.Nodup)
    (hinside : c.Inside s) : s.Hosts c (.onWorld c.size plans) (s.placed c plans) where
  rankCount_eq := s.rankCount_placed c plans
  member := by
    intro rank hrank
    rw [opsAt_placed hnodup hinside plans hrank, opsAt_onWorld plans hrank,
      RankPlan.relocate_opsOn hc hrank]
  other := fun owner howner => opsAt_placed_of_notMem howner s plans

end Relocate

namespace Schedule

theorem ext_opsAt {s t : Schedule} (hcount : s.rankCount = t.rankCount)
    (hops : ∀ rank, s.opsAt rank = t.opsAt rank) : s = t := by
  obtain ⟨ranks⟩ := s
  obtain ⟨ranks'⟩ := t
  congr
  apply List.ext_getElem hcount
  intro rank h h'
  have hrank := hops rank
  simpa [opsAt, List.getElem?_eq_getElem h, List.getElem?_eq_getElem h'] using hrank

/-- Placing on disjoint communicators commutes: neither sees what the other appends. -/
theorem placed_comm {c d : Communicator} {s : Schedule} (hc : c.members.Nodup)
    (hd : d.members.Nodup) (hcs : c.Inside s) (hds : d.Inside s)
    (hapart : c.members.Disjoint d.members) (plans others : Nat → RankPlan) :
    (s.placed c plans).placed d others = (s.placed d others).placed c plans := by
  have hcs' : c.Inside (s.placed d others) := fun owner howner => by
    rw [rankCount_placed]
    exact hcs owner howner
  have hds' : d.Inside (s.placed c plans) := fun owner howner => by
    rw [rankCount_placed]
    exact hds owner howner
  apply ext_opsAt (by simp only [rankCount_placed])
  intro owner
  by_cases hcm : owner ∈ c.members
  · have hdm := List.disjoint_left.1 hapart hcm
    obtain ⟨rank, hrank, rfl⟩ := c.exists_member hcm
    rw [opsAt_placed_of_notMem hdm, opsAt_placed hc hcs plans hrank,
      opsAt_placed hc hcs' plans hrank, opsAt_placed_of_notMem hdm]
  · by_cases hdm : owner ∈ d.members
    · obtain ⟨rank, hrank, rfl⟩ := d.exists_member hdm
      rw [opsAt_placed hd hds' others hrank, opsAt_placed_of_notMem hcm,
        opsAt_placed_of_notMem hcm, opsAt_placed hd hds others hrank]
    · rw [opsAt_placed_of_notMem hdm, opsAt_placed_of_notMem hcm, opsAt_placed_of_notMem hcm,
        opsAt_placed_of_notMem hdm]

end Schedule

namespace Builder

/-- The all-to-all of an algorithm on `ranks` ranks, with the matrix that it draws. -/
def alltoall (algorithm : Alltoall.Algorithm) (request : Alltoall.Request) (words : Random.Words)
    (ranks start : Nat) : Builder :=
  match algorithm with
  | .windowed => windowed request
  | .balanced => balanced request
  | .unbalanced =>
    unbalanced request ((Alltoall.drawSizes .unbalanced request words ranks).run start).1

theorem pattern_alltoall (algorithm : Alltoall.Algorithm) (request : Alltoall.Request)
    (words : Random.Words) (ranks start : Nat) :
    (alltoall algorithm request words ranks start).pattern =
      Alltoall.pattern algorithm request
        ((Alltoall.drawSizes algorithm request words ranks).run start).1 := by
  cases algorithm <;> rfl

end Builder

namespace Call

variable {count : Nat}

/-- Whether a call succeeds on a schedule, and how it fails if not. -/
def outcome (call : Call count) (s : Schedule) : Except Failure Unit :=
  ((Build.run call.on call.builder.pattern).runOn s).1

/-- The same collective on a world of its size. -/
def atHome (call : Call count) : Call call.on.size where
  on := .world call.on.size
  builder := call.builder
  distinct := Communicator.nodup_world call.on.size
  below := fun rank hrank => by simpa [Communicator.world] using hrank

theorem outcome_eq (call : Call count) {s : Schedule} (hs : s.rankCount = count) :
    call.outcome s =
      match call.builder.pattern call.on.size with
      | .ok _ => .ok ()
      | .error error => .error (.refused error) := by
  rw [outcome, call.runOn_eq hs]
  cases call.builder.pattern call.on.size <;> rfl

/-- What a call adds is placed by its communicator, so it meets nothing of a call on other ranks. -/
theorem perform_comm (call other : Call count) {s : Schedule} (hs : s.rankCount = count)
    (hapart : call.on.members.Disjoint other.on.members) :
    other.perform (call.perform s) = call.perform (other.perform s) := by
  rw [other.perform_eq (call.rankCount_perform hs), call.perform_eq (other.rankCount_perform hs),
    call.perform_eq hs, other.perform_eq hs]
  cases call.builder.pattern call.on.size with
  | error error => rfl
  | ok plans =>
    cases other.builder.pattern other.on.size with
    | error error => rfl
    | ok others =>
      exact Schedule.placed_comm call.distinct other.distinct (call.inside hs) (other.inside hs)
        hapart plans others

/-- The outcome does not depend on what another call did before. -/
theorem outcome_perform (call other : Call count) {s : Schedule} (hs : s.rankCount = count) :
    other.outcome (call.perform s) = other.outcome s := by
  rw [other.outcome_eq (call.rankCount_perform hs), other.outcome_eq hs]

/-- A call on any schedule that has the ranks of its communicator succeeds, or is refused in the
very way, as it does on an idle world of the same size. If it succeeds, the schedule gains what the
collective makes of that world, with ranks renamed and positions moved; if it is refused, the
schedule stays as it was. Two calls on disjoint communicators can change places: neither their
outcomes nor the schedule that they leave depend on their order. An all-to-all that is asked for by
its algorithm, with the sizes that it draws, is such a call. -/
theorem relocates (call : Call count) {s : Schedule} (hs : s.rankCount = count) :
    call.outcome s = call.atHome.outcome (.idle call.on.size) ∧
    ((call.outcome s = .ok () ∧
        s.Hosts call.on (call.atHome.perform (.idle call.on.size)) (call.perform s)) ∨
      ∃ error, call.outcome s = .error (.refused error) ∧ call.perform s = s) ∧
    (∀ other : Call count, call.on.members.Disjoint other.on.members →
      other.perform (call.perform s) = call.perform (other.perform s) ∧
        other.outcome (call.perform s) = other.outcome s ∧
        call.outcome (other.perform s) = call.outcome s) ∧
    ∀ (algorithm : Alltoall.Algorithm) (request : Alltoall.Request) (words : Random.Words)
      (start : Nat),
      let asked : Call count :=
        { call with builder := .alltoall algorithm request words call.on.size start }
      (Build.run call.on (Alltoall.pattern algorithm request
        ((Alltoall.drawSizes algorithm request words call.on.size).run start).1)).runOn s =
          (asked.outcome s, asked.perform s) := by
  have hhome : (Schedule.idle call.on.size).rankCount = call.on.size := by
    simp [Schedule.idle, Schedule.rankCount]
  refine ⟨?_, ?_, ?_, ?_⟩
  · rw [call.outcome_eq hs, call.atHome.outcome_eq hhome]
    simp [atHome]
  · cases hplans : call.builder.pattern call.on.size with
    | ok plans =>
      obtain ⟨level, hc⟩ := call.builder.coherent call.on.size plans hplans
      have hout := call.outcome_eq hs
      have hperform := call.perform_eq hs
      have hworld := call.atHome.perform_eq hhome
      simp only [atHome, Communicator.size_world, hplans] at hout hperform hworld
      left
      rw [hperform, atHome, hworld]
      exact ⟨hout, Schedule.hosts_placed hc call.distinct (call.inside hs)⟩
    | error error =>
      have hout := call.outcome_eq hs
      have hperform := call.perform_eq hs
      rw [hplans] at hout hperform
      exact Or.inr ⟨error, hout, hperform⟩
  · intro other hapart
    exact ⟨call.perform_comm other hs hapart, call.outcome_perform other hs,
      other.outcome_perform call hs⟩
  · intro algorithm request words start asked
    rw [← Builder.pattern_alltoall]
    rfl

/-- A ring on two of four busy ranks, beside a dissemination on the other two. -/
theorem relocates_beside_dissemination :
    let busy : Schedule := ⟨[[⟨.calc 7, []⟩], [], [⟨.calc 1, []⟩, ⟨.calc 2, [⟨2, 0⟩]⟩], []]⟩
    let call : Call 4 := ⟨⟨[2, 0]⟩, .ring ⟨8, 3, 5⟩, by decide, by decide⟩
    let other : Call 4 := ⟨⟨[3, 1]⟩, .dissemination 16 0, by decide, by decide⟩
    busy.rankCount = 4 ∧ call.on.members.Disjoint other.on.members ∧
      call.outcome busy = .ok () ∧
      busy.Hosts call.on (call.atHome.perform (.idle 2)) (call.perform busy) ∧
      other.perform (call.perform busy) = call.perform (other.perform busy) := by
  intro busy call other
  have hapart : call.on.members.Disjoint other.on.members := by
    simp [call, other, List.disjoint_left]
  obtain ⟨hsame, hhosts | ⟨error, hrefused, -⟩, hcomm, -⟩ :=
    relocates call (show busy.rankCount = 4 from rfl)
  · exact ⟨rfl, hapart, hhosts.1, hhosts.2, (hcomm other hapart).1⟩
  · have hok : call.outcome busy = .ok () := call.outcome_eq rfl
    rw [hok] at hrefused
    cases hrefused

end Call
end Collectives
