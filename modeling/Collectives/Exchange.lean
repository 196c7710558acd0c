import Collectives.Plan

/-!
# Exchanges

An exchange is a list of pairs, each a send and a receive of one rank. Three policies plan it: the
pairs one after another (`chained`), all at once (`parallel`), or with a bounded number of pairs in
flight (`windowed`).
-/

namespace Collectives

/-- A send to `destination` together with a receive from `source`, both under `tag`. -/
structure Pair where
  source : Nat
  recvSize : Nat
  destination : Nat
  sendSize : Nat
  tag : Tag
  deriving DecidableEq, Repr

namespace Pair

def round (pair : Pair) (waits : List Wait) : Round :=
  [⟨.send pair.destination pair.sendSize pair.tag, waits⟩,
   ⟨.recv pair.source pair.recvSize pair.tag, waits⟩]

end Pair

namespace RankPlan

/-- One pair after another. Both halves of a pair wait for the receive of the pair before it, the
first pair for `handle`. A positive `cost` puts a computation of that cost behind every receive,
and what would wait for the receive waits for the computation. The plan's own operations are
counted from `position`. -/
def chained (cost : Nat) : (position : Nat) → (handle : Option Wait) → List Pair → RankPlan
  | _, _, [] => []
  | position, handle, pair :: rest =>
    if cost = 0 then
      pair.round handle.toList :: chained cost (position + 2) (some (.own (position + 1))) rest
    else
      pair.round handle.toList :: [⟨.calc cost, [.own (position + 1)]⟩] ::
        chained cost (position + 3) (some (.own (position + 2))) rest

def parallel (pairs : List Pair) : RankPlan := pairs.map (·.round [])

/-- The two operations of the pair number `index`, when every pair before it has two. -/
def halves (index : Nat) : List Wait := [.own (2 * index), .own (2 * index + 1)]

/-- At most `window` pairs in flight: from the pair number `window` on, both halves of a pair wait
for both halves of the pair `window` places before it. -/
def windowed (window : Nat) (pairs : List Pair) : RankPlan :=
  pairs.zipIdx.map fun (pair, index) =>
    pair.round (if index < window then [] else halves (index - window))

end RankPlan

/-- The exchange of one rank as parallel lists. All ranks are local. -/
structure Exchange where
  rank : Nat
  sources : List Nat
  destinations : List Nat
  recvSizes : List Nat
  sendSizes : List Nat
  tag : Tag
  deriving DecidableEq, Repr

namespace Exchange

def checkLength (ex : Exchange) (what : String) (got : Nat) : Except Error Unit :=
  if got = ex.sources.length then .ok () else .error (.lengthMismatch what got ex.sources.length)

/-- The pairs of an exchange, once its lists agree in length and all its ranks lie in a
communicator of `size` ranks. -/
def pairs (ex : Exchange) (size : Nat) : Except Error (List Pair) := do
  ex.checkLength "destinations" ex.destinations.length
  ex.checkLength "recv_sizes" ex.recvSizes.length
  ex.checkLength "send_sizes" ex.sendSizes.length
  match (ex.rank :: ex.sources ++ ex.destinations).find? (size ≤ ·) with
  | some rank => .error (.rankOutOfRange rank size)
  | none =>
    return ((ex.sources.zip ex.recvSizes).zip (ex.destinations.zip ex.sendSizes)).map
      fun ((source, recvSize), destination, sendSize) =>
        { source, recvSize, destination, sendSize, tag := ex.tag }

open Build

/-- One pair after another, the first after `last`. The result is what a later step has to wait
for: the last operation, or `last` if there are no pairs. -/
def sequential (c : Communicator) (ex : Exchange) (last : Option OpId) (cost : Nat) :
    Build (Option OpId) := do
  let pairs ← check (ex.pairs c.size)
  let ids ← issue c ex.rank (.chained cost 0 (last.map .existing) pairs)
  return ids.getLast?.or last

/-- All pairs at once; the result is the last receive. -/
def parallel (c : Communicator) (ex : Exchange) : Build (Option OpId) := do
  let pairs ← check (ex.pairs c.size)
  return (← issue c ex.rank (.parallel pairs)).getLast?

def windowed (c : Communicator) (ex : Exchange) (window : Nat) : Build (Option OpId) := do
  if window = 0 then refuse .zeroWindow
  let pairs ← check (ex.pairs c.size)
  return (← issue c ex.rank (.windowed window pairs)).getLast?

end Exchange
end Collectives
