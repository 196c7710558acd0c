/-!
# Operations

What one rank does: send a message, receive one, or compute. Peers, sizes, costs and positions are
natural numbers; a tag is a 32-bit word.
-/

namespace Collectives

/-- The label that a message carries. -/
abbrev Tag := UInt32

def Tag.last : Tag := 0xFFFFFFFF

/-- The tag after `tag`, unless `tag` is the last one. -/
def Tag.next? (tag : Tag) : Option Tag := if tag = Tag.last then none else some (tag + 1)

/-- The name of an operation: the rank that owns it and its position in that rank's list. -/
structure OpId where
  rank : Nat
  index : Nat
  deriving DecidableEq, Repr

/-- What an operation does. The peer of a send is its destination, the peer of a receive its
source. -/
inductive Action where
  | send (peer size : Nat) (tag : Tag)
  | recv (peer size : Nat) (tag : Tag)
  | calc (cost : Nat)
  deriving DecidableEq, Repr

namespace Action

def isSend : Action → Bool
  | .send .. => true
  | _ => false

def isRecv : Action → Bool
  | .recv .. => true
  | _ => false

def peer? : Action → Option Nat
  | .send peer _ _ | .recv peer _ _ => some peer
  | .calc _ => none

def size? : Action → Option Nat
  | .send _ size _ | .recv _ size _ => some size
  | .calc _ => none

def tag? : Action → Option Tag
  | .send _ _ tag | .recv _ _ tag => some tag
  | .calc _ => none

/-- Renames the peer by a map that may fail. -/
def mapPeerM {m : Type → Type} [Monad m] (f : Nat → m Nat) : Action → m Action
  | .send peer size tag => do return .send (← f peer) size tag
  | .recv peer size tag => do return .recv (← f peer) size tag
  | .calc cost => return .calc cost

end Action

/-- An operation and the operations that have to complete before it may start. -/
structure Op where
  action : Action
  requires : List OpId := []
  deriving DecidableEq, Repr

/-- Waits for `dep` as well; a dependency that is there already is kept once. -/
def Op.waitFor (op : Op) (dep : OpId) : Op :=
  if dep ∈ op.requires then op else { op with requires := op.requires ++ [dep] }

end Collectives
