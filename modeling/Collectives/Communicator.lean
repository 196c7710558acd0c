import Collectives.Error

/-!
# Communicators

A communicator is an ordered list of ranks; the position of a rank in it is its local rank.
-/

namespace Collectives

structure Communicator where
  members : List Nat
  deriving DecidableEq, Repr

namespace Communicator

/-- The communicator of the ranks below `size`, each under its own number. -/
def world (size : Nat) : Communicator := ⟨List.range size⟩

def size (c : Communicator) : Nat := c.members.length

def globalOf (c : Communicator) (rank : Nat) : Except Fault Nat := entryAt c.members rank

/-- The first position at which `rank` is a member. -/
def local? (c : Communicator) (rank : Nat) : Option Nat := c.members.idxOf? rank

end Communicator
end Collectives
