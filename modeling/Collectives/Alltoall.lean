import Collectives.Exchange
import Collectives.Payload
import Collectives.Text.Name

/-!
# All-to-all

Every rank exchanges with every other: at offset `k` it sends `k` ranks ahead and receives from `k`
ranks behind. The variants differ in how many pairs are in flight and in the sizes.
-/

namespace Collectives.Alltoall

inductive Algorithm where
  | windowed
  | balanced
  | unbalanced
  deriving DecidableEq, Repr

def Algorithm.parse (name : String) : Except Error Algorithm :=
  match Text.compact name with
  | "windowed" => .ok .windowed
  | "balanced" => .ok .balanced
  | "unbalanced" => .ok .unbalanced
  | _ => .error (.unknownAlltoall name)

/-- What an all-to-all is asked for: the bytes for each peer (the middle of them when unbalanced),
the tag, and the pairs in flight when windowed. -/
structure Request where
  size : Nat
  tag : Tag
  window : Nat
  deriving DecidableEq, Repr

def offsets (ranks : Nat) : List Nat := (List.range (ranks - 1)).map (· + 1)

def sources (rank ranks : Nat) : List Nat :=
  (offsets ranks).map fun offset => (rank + ranks - offset) % ranks

def destinations (rank ranks : Nat) : List Nat :=
  (offsets ranks).map fun offset => (rank + offset) % ranks

/-- The pairs of a rank, when `sizeOf` tells how much goes from one rank to another. -/
def pairs (sizeOf : Nat → Nat → Nat) (tag : Tag) (ranks rank : Nat) : List Pair :=
  ((sources rank ranks).zip (destinations rank ranks)).map fun (source, destination) =>
    { source, recvSize := sizeOf source rank,
      destination, sendSize := sizeOf rank destination, tag }

def windowed (request : Request) : Pattern := fun ranks =>
  if request.window = 0 then .error .zeroWindow
  else .ok fun rank =>
    .windowed request.window (pairs (fun _ _ => request.size) request.tag ranks rank)

def balanced (request : Request) : Pattern := fun ranks =>
  .ok fun rank => .parallel (pairs (fun _ _ => request.size) request.tag ranks rank)

/-- The entry of a matrix; zero outside. -/
def entry (sizes : List (List Nat)) (row column : Nat) : Nat := (sizes.getD row []).getD column 0

/-- All pairs at once, with the sizes of a matrix that has a row and a column for every rank. -/
def unbalanced (request : Request) (sizes : List (List Nat)) : Pattern := fun ranks =>
  if sizes.length ≠ ranks then
    .error (.lengthMismatch "payload matrix" sizes.length ranks)
  else match sizes.find? (·.length ≠ ranks) with
    | some row => .error (.lengthMismatch "payload matrix row" row.length ranks)
    | none => .ok fun rank => .parallel (pairs (entry sizes) request.tag ranks rank)

def pattern (algorithm : Algorithm) (request : Request) (sizes : List (List Nat)) : Pattern :=
  match algorithm with
  | .windowed => windowed request
  | .balanced => balanced request
  | .unbalanced => unbalanced request sizes

/-- The matrix that an algorithm needs on `ranks` ranks: none is drawn for a balanced one. -/
def drawSizes (algorithm : Algorithm) (request : Request) (words : Random.Words) (ranks : Nat) :
    Random.Draw (List (List Nat)) :=
  match algorithm with
  | .unbalanced => Payload.matrix words ranks request.size
  | .windowed | .balanced => return []

end Collectives.Alltoall
