import Collectives.Error
import Collectives.Text.Name

/-!
# Families

The kinds of collectives and their names.
-/

namespace Collectives

inductive Family where
  | binomialTree
  | dissemination
  | allreduce
  | alltoall
  | multiAllreduce
  | multiAlltoall
  deriving DecidableEq, Repr

namespace Family

def parse (name : String) : Except Error Family :=
  match Text.compact name with
  | "binomialtree" => .ok .binomialTree
  | "dissemination" => .ok .dissemination
  | "allreduce" => .ok .allreduce
  | "alltoall" => .ok .alltoall
  | "multiallreduce" => .ok .multiAllreduce
  | "multialltoall" => .ok .multiAlltoall
  | _ => .error (.unknownCollective name)

/-- Whether the collective runs once in each of several groups. -/
def isGrouped : Family → Bool
  | .multiAllreduce | .multiAlltoall => true
  | _ => false

end Family
end Collectives
