import Collectives.Allreduce
import Collectives.Alltoall
import Collectives.Proofs.Tree

/-!
# Sequences of calls

A schedule is built by calls one after another, each for a collective on a communicator of its own.
A refused call leaves no trace, any other places coherent plans. So the schedule is leveled after
any number of calls, and all its messages match.
-/

namespace Collectives

/-- A collective with all its parameters; an unbalanced all-to-all comes with its matrix. -/
inductive Builder where
  | tree (size : Nat) (tag : Tag) (direction : Binomial.Direction)
  | dissemination (size : Nat) (tag : Tag)
  | recursiveDoubling (r : Reduction)
  | ring (r : Reduction)
  | allreduce (algorithm : Allreduce.Algorithm) (r : Reduction)
  | windowed (request : Alltoall.Request)
  | balanced (request : Alltoall.Request)
  | unbalanced (request : Alltoall.Request) (sizes : List (List Nat))
  deriving DecidableEq, Repr

namespace Builder

def pattern : Builder → Pattern
  | tree size tag direction => Binomial.tree size tag direction
  | dissemination size tag => Dissemination.exchange size tag
  | recursiveDoubling r => Butterfly.allreduce r
  | ring r => Ring.allreduce r
  | allreduce algorithm r => Allreduce.pattern algorithm r
  | windowed request => Alltoall.windowed request
  | balanced request => Alltoall.balanced request
  | unbalanced request sizes => Alltoall.unbalanced request sizes

theorem coherent_allreduce (algorithm : Allreduce.Algorithm) (r : Reduction) :
    (Allreduce.pattern algorithm r).Coherent := by
  unfold Allreduce.pattern
  split
  · exact Butterfly.coherent r
  · exact Ring.coherent r
  · exact Ring.coherent r

theorem coherent_alltoall (algorithm : Alltoall.Algorithm) (request : Alltoall.Request)
    (sizes : List (List Nat)) : (Alltoall.pattern algorithm request sizes).Coherent := by
  cases algorithm with
  | windowed => exact Alltoall.coherent_windowed request
  | balanced => exact Alltoall.coherent_balanced request
  | unbalanced => exact Alltoall.coherent_unbalanced request sizes

theorem coherent (builder : Builder) : builder.pattern.Coherent := by
  cases builder with
  | tree size tag direction => exact Binomial.coherent size tag direction
  | dissemination size tag => exact Dissemination.coherent size tag
  | recursiveDoubling r => exact Butterfly.coherent r
  | ring r => exact Ring.coherent r
  | allreduce algorithm r => exact coherent_allreduce algorithm r
  | windowed request => exact Alltoall.coherent_windowed request
  | balanced request => exact Alltoall.coherent_balanced request
  | unbalanced request sizes => exact Alltoall.coherent_unbalanced request sizes

end Builder

/-- What a pattern comes to on a schedule that has the ranks of `c`: all its plans are placed, or it
is refused and nothing changes. -/
def Pattern.outcome (pattern : Pattern) (c : Communicator) (s : Schedule) :
    Except Failure Unit × Schedule :=
  match pattern c.size with
  | .ok plans => (.ok (), s.placed c plans)
  | .error error => (.error (.refused error), s)

theorem Pattern.Coherent.runOn_run {pattern : Pattern} (hcoherent : pattern.Coherent)
    {c : Communicator} {s : Schedule} (hinside : c.Inside s) :
    (Build.run c pattern).runOn s = pattern.outcome c s := by
  apply Build.runOn_run hinside
  intro plans hplans rank hrank
  obtain ⟨level, hc⟩ := hcoherent c.size plans hplans
  exact hc.fits rank hrank s

/-- A call on a schedule of `count` ranks: a collective for distinct ranks of the schedule. -/
structure Call (count : Nat) where
  on : Communicator
  builder : Builder
  distinct : on.members.Nodup
  below : ∀ rank ∈ on.members, rank < count

namespace Call

variable {count : Nat}

/-- What a call makes of a schedule, whether it succeeds or not. -/
def perform (call : Call count) (s : Schedule) : Schedule :=
  ((Build.run call.on call.builder.pattern).runOn s).2

theorem inside (call : Call count) {s : Schedule} (hs : s.rankCount = count) :
    call.on.Inside s := by
  intro owner howner
  rw [hs]
  exact call.below owner howner

/-- A call is refused and leaves the schedule alone, or it places the plans of its collective. -/
theorem runOn_eq (call : Call count) {s : Schedule} (hs : s.rankCount = count) :
    (Build.run call.on call.builder.pattern).runOn s =
      match call.builder.pattern call.on.size with
      | .ok plans => (.ok (), s.placed call.on plans)
      | .error error => (.error (.refused error), s) :=
  call.builder.coherent.runOn_run (call.inside hs)

theorem perform_eq (call : Call count) {s : Schedule} (hs : s.rankCount = count) :
    call.perform s =
      match call.builder.pattern call.on.size with
      | .ok plans => s.placed call.on plans
      | .error _ => s := by
  rw [perform, call.runOn_eq hs]
  cases call.builder.pattern call.on.size <;> rfl

theorem rankCount_perform (call : Call count) {s : Schedule} (hs : s.rankCount = count) :
    (call.perform s).rankCount = count := by
  rw [call.perform_eq hs]
  cases call.builder.pattern call.on.size with
  | ok plans => exact (s.rankCount_placed call.on plans).trans hs
  | error error => exact hs

theorem leveled_perform (call : Call count) {s : Schedule} (hs : s.rankCount = count)
    {level : OpId → Nat} (h : s.Leveled level) :
    ∃ level, (call.perform s).Leveled level := by
  rw [call.perform_eq hs]
  cases hplans : call.builder.pattern call.on.size with
  | ok plans =>
    obtain ⟨planLevel, hc⟩ := call.builder.coherent call.on.size plans hplans
    exact ⟨_, h.placed hc call.distinct (call.inside hs)⟩
  | error error => exact ⟨level, h⟩

end Call

namespace Schedule

variable {count : Nat}

/-- The schedule that a sequence of calls makes of an idle one. -/
def ofCalls (calls : List (Call count)) : Schedule :=
  calls.foldl (fun s call => call.perform s) (idle count)

theorem leveled_foldl_perform (calls : List (Call count)) {s : Schedule}
    (hs : s.rankCount = count) {level : OpId → Nat} (h : s.Leveled level) :
    ∃ level, (calls.foldl (fun s call => call.perform s) s).Leveled level := by
  induction calls generalizing s level with
  | nil => exact ⟨level, h⟩
  | cons call calls ih =>
    obtain ⟨next, hnext⟩ := call.leveled_perform hs h
    exact ih (call.rankCount_perform hs) hnext

theorem leveled_ofCalls (calls : List (Call count)) :
    ∃ level, (ofCalls calls).Leveled level := by
  have hidle : (idle count).rankCount = count := by simp [idle, rankCount]
  exact leveled_foldl_perform calls hidle (leveled_idle count)

theorem map_snd_endsFrom (size? : Action → Option Nat) (rank base : Nat) (ops : List Op) :
    (endsFrom size? rank base ops).map Prod.snd = ops.filterMap fun op => size? op.action := by
  rw [endsFrom, List.map_filterMap]
  conv_rhs => rw [← List.zipIdx_map_fst base ops, List.filterMap_map]
  apply List.filterMap_congr
  rintro ⟨op, index⟩ -
  cases hsize : size? op.action <;> simp [hsize]

/-- After any calls, what one rank sends to another under a tag is what the other receives, in
number, order and sizes; no rank has messages for itself; every send has exactly one receive and
every receive exactly one send; and the two carry the same bytes under the same tag. -/
theorem messages_match (calls : List (Call count)) :
    (∀ source destination tag,
      ((ofCalls calls).opsAt source).filterMap (fun op => op.action.sentTo? destination tag) =
        ((ofCalls calls).opsAt destination).filterMap
          fun op => op.action.receivedFrom? source tag) ∧
    (∀ rank, ∀ op ∈ (ofCalls calls).opsAt rank, op.action.peer? ≠ some rank) ∧
    (∀ id op, (ofCalls calls).op? id = some op → op.action.isSend = true →
      ∃! receiver, (ofCalls calls).Matched id receiver) ∧
    (∀ id op, (ofCalls calls).op? id = some op → op.action.isRecv = true →
      ∃! sender, (ofCalls calls).Matched sender id) ∧
    (∀ sender receiver, (ofCalls calls).Matched sender receiver →
      ∃ size tag requires requires',
        (ofCalls calls).op? sender = some ⟨.send receiver.rank size tag, requires⟩ ∧
        (ofCalls calls).op? receiver = some ⟨.recv sender.rank size tag, requires'⟩) := by
  obtain ⟨level, h⟩ := leveled_ofCalls calls
  refine ⟨?_, h.apart, ?_, ?_, fun sender receiver hmatched => h.agrees.size_of_matched hmatched⟩
  · intro source destination tag
    have hsizes := h.agrees.sizes source destination tag
    rwa [outgoing, incoming, map_snd_endsFrom, map_snd_endsFrom] at hsizes
  · rintro id ⟨action, requires⟩ hop hsend
    rcases action with ⟨destination, size, tag⟩ | _ | _
    · obtain ⟨receiver, hmatched⟩ := h.agrees.exists_receiver hop
      exact ⟨receiver, hmatched, fun other hother => hother.receiver_unique hmatched⟩
    · cases hsend
    · cases hsend
  · rintro id ⟨action, requires⟩ hop hrecv
    rcases action with _ | ⟨source, size, tag⟩ | _
    · cases hrecv
    · obtain ⟨sender, hmatched⟩ := h.agrees.exists_sender hop
      exact ⟨sender, hmatched, fun other hother => hother.sender_unique hmatched⟩
    · cases hrecv

/-- A ring on two of three ranks, then recursive doubling, which is refused on all three. -/
example :
    let ring : Call 3 := ⟨⟨[2, 0]⟩, .ring ⟨8, 0, 0⟩, by decide, by decide⟩
    let refused : Call 3 := ⟨.world 3, .recursiveDoubling ⟨8, 0, 0⟩, by decide, by decide⟩
    (ofCalls [ring, refused]).ranks.map List.length = [4, 0, 4] ∧
      (ofCalls [ring, refused]).Matched ⟨2, 0⟩ ⟨0, 1⟩ :=
  ⟨by decide, 2, 0, 0, 0, by decide, by decide⟩

end Schedule
end Collectives
