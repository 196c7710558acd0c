import Collectives.Plan
import Collectives.Text.Name

/-!
# Binomial trees

The tree is rooted at rank 0. A rank `r > 0` hangs below the rank with the highest bit of `r`
cleared; its children lie at the powers of two above `r`. A reduction sends up the tree, a broadcast
down.
-/

namespace Collectives

/-- The least number of doublings of 1 that reach `ranks`. -/
def doublings (ranks : Nat) : Nat := if ranks ≤ 1 then 0 else (ranks - 1).log2 + 1

namespace Binomial

inductive Direction where
  | reduce
  | broadcast
  deriving DecidableEq, Repr

def Direction.parse (name : String) : Except Error Direction :=
  match Text.lowered name with
  | "reduce" => .ok .reduce
  | "bcast" | "broadcast" => .ok .broadcast
  | _ => .error (.unknownDirection name)

structure Neighbours where
  child : Option Nat
  parent : Option Nat
  deriving DecidableEq, Repr

/-- The neighbours of `rank` at distance `2 ^ step`: a child if the rank is below that distance, a
parent if the distance is the highest bit of the rank. -/
def neighbours (rank ranks step : Nat) : Neighbours where
  child :=
    if rank < 1 <<< step ∧ rank + 1 <<< step < ranks then some (rank + 1 <<< step) else none
  parent :=
    if 1 <<< step ≤ rank ∧ rank < 1 <<< (step + 1) then some (rank - 1 <<< step) else none

/-- A sum of words; one that does not fit a word is a fault. -/
def addWords (x y : UInt64) : Except Fault UInt64 :=
  if x.toNat + y.toNat < UInt64.size then .ok (x + y) else .error .sumTooLarge

/-- The distance at a step; a word has 64 places. -/
def wordDistance (step : UInt64) : Except Fault UInt64 :=
  if step < 64 then .ok (1 <<< step) else .error .shiftTooFar

/-- The neighbours of a rank by the operations of words. The sum of the rank and the distance is
formed before it is known whether there is a child, so it has to fit a word for every rank. Twice
the distance may be lost: the window of a parent is empty then. -/
def wordNeighbours (rank ranks step : UInt64) : Except Fault Neighbours := do
  let distance ← wordDistance step
  let inside ←
    if rank < distance then (fun sum => decide (sum < ranks)) <$> addWords rank distance
    else pure false
  let sum ← addWords rank distance
  return {
    child := if inside then some sum.toNat else none
    parent :=
      if distance ≤ rank ∧ rank < distance <<< 1 then some (rank - distance).toNat else none }

def steps (rank ranks : Nat) : List Neighbours :=
  (List.range (doublings ranks)).map (neighbours rank ranks)

def parent? (rank ranks : Nat) : Option Nat := (steps rank ranks).findSome? (·.parent)

def children (rank ranks : Nat) : List Nat := (steps rank ranks).filterMap (·.child)

/-- The message to or from the parent comes first. In a reduction it waits for the receive from
every child, in a broadcast every send to a child waits for it. -/
def plan (size : Nat) (tag : Tag) (direction : Direction) (ranks rank : Nat) : RankPlan :=
  let up := (parent? rank ranks).toList
  let down := children rank ranks
  match direction with
  | .reduce =>
    let received := (List.range down.length).map (.own <| · + 1)
    [up.map (fun parent => ⟨.send parent size tag, received⟩) ++
      down.map (fun child => ⟨.recv child size tag, []⟩)]
  | .broadcast =>
    let received := up.map fun _ => .own 0
    [up.map (fun parent => ⟨.recv parent size tag, []⟩) ++
      down.map (fun child => ⟨.send child size tag, received⟩)]

def tree (size : Nat) (tag : Tag) (direction : Direction) : Pattern :=
  fun ranks => .ok (plan size tag direction ranks)

end Binomial
end Collectives
