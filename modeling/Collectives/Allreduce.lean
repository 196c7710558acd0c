import Collectives.Ring
import Collectives.Text.Name

/-!
# Allreduce

The choice between the ring and recursive doubling, by name or by the size of the data.
-/

namespace Collectives.Allreduce

inductive Algorithm where
  | ring
  | recursiveDoubling
  /-- Recursive doubling for small data, the ring for large. -/
  | bySize
  deriving DecidableEq, Repr

def Algorithm.parse (name : String) : Except Error Algorithm :=
  match Text.compact name with
  | "ring" => .ok .ring
  | "recdoub" | "recursivedoubling" => .ok .recursiveDoubling
  | "datasizebased" => .ok .bySize
  | _ => .error (.unknownAllreduce name)

def largeSize : Nat := 4096

/-- The algorithm that is meant for `size` bytes, never `bySize`. -/
def Algorithm.forSize (algorithm : Algorithm) (size : Nat) : Algorithm :=
  match algorithm with
  | .bySize => if size < largeSize then .recursiveDoubling else .ring
  | other => other

def pattern (algorithm : Algorithm) (r : Reduction) : Pattern :=
  match algorithm.forSize r.size with
  | .recursiveDoubling => Butterfly.allreduce r
  | .ring | .bySize => Ring.allreduce r

end Collectives.Allreduce
