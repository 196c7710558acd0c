import Collectives.Operation

/-!
# Refusals and faults

An `Error` is a refusal that callers can foresee and that has a text of its own. A `Fault` is a
breach of an operation's contract, such as a local rank that a communicator does not have.
-/

namespace Collectives

inductive Error where
  | unknownCollective (name : String)
  | unknownAllreduce (name : String)
  | unknownAlltoall (name : String)
  | unknownDirection (name : String)
  | unknownFormat (name : String)
  | notPowerOfTwo (ranks : Nat)
  | emptyCommunicator
  | tagOverflow (tag : Tag)
  | rankOutOfRange (rank size : Nat)
  | zeroWindow
  | lengthMismatch (what : String) (got expected : Nat)
  | unknownOp (id : OpId)
  deriving DecidableEq, Repr

/-- The text shown for a refusal. Names appear in it as they were given. -/
def Error.message : Error → String
  | unknownCollective name => "unknown collective: " ++ name
  | unknownAllreduce name => "allreduce algorithm " ++ name ++ " not implemented"
  | unknownAlltoall name => "alltoall algorithm " ++ name ++ " not implemented"
  | unknownDirection name => "direction " ++ name ++ " in binomialtree not implemented"
  | unknownFormat name => "unknown trace format: " ++ name
  | notPowerOfTwo ranks =>
    "recursive doubling needs a power-of-two communicator, got " ++ ranks.repr ++ " ranks"
  | emptyCommunicator => "communicator must contain at least one rank"
  | tagOverflow tag => "tag space exhausted after tag " ++ tag.toNat.repr
  | rankOutOfRange rank size =>
    "rank " ++ rank.repr ++ " is outside a communicator of " ++ size.repr ++ " ranks"
  | zeroWindow => "window size must be at least 1"
  | lengthMismatch what got expected =>
    "length mismatch: " ++ what ++ " has " ++ got.repr ++ " entries, expected " ++ expected.repr
  | unknownOp id => "operation l" ++ id.index.repr ++ " does not exist on rank " ++ id.rank.repr

/-- A use outside the contract of an operation. -/
inductive Fault where
  | indexOutOfBounds (length index : Nat)
  | remainderByZero
  | sumTooLarge
  | shiftTooFar
  deriving DecidableEq, Repr

def Fault.message : Fault → String
  | indexOutOfBounds length index =>
    "index out of bounds: the len is " ++ length.repr ++ " but the index is " ++ index.repr
  | remainderByZero => "attempt to calculate the remainder with a divisor of zero"
  | sumTooLarge => "attempt to add with overflow"
  | shiftTooFar => "attempt to shift left with overflow"

inductive Failure where
  | refused (error : Error)
  | faulted (fault : Fault)
  deriving DecidableEq, Repr

def Failure.message : Failure → String
  | refused error => error.message
  | faulted fault => fault.message

/-- The entry of `entries` at `index`; a position past the end is a fault. -/
def entryAt {α : Type} (entries : List α) (index : Nat) : Except Fault α :=
  match entries[index]? with
  | some entry => .ok entry
  | none => .error (.indexOutOfBounds entries.length index)

end Collectives
