import Collectives.Exchange

/-!
# Recursive doubling

An allreduce over a butterfly: at step `i` a rank works with the rank that differs in bit `i`. The
first phase halves the data at every step, the second runs the steps backwards under the next tag.
It needs a power of two of ranks.
-/

namespace Collectives

/-- What an allreduce is asked for: the bytes that every rank reduces, the tag of its first phase,
and the cost of the computation behind every receive, zero for none. -/
structure Reduction where
  size : Nat
  tag : Tag
  cost : Nat
  deriving DecidableEq, Repr

def Reduction.secondTag (r : Reduction) : Except Error Tag :=
  match Tag.next? r.tag with
  | some tag => .ok tag
  | none => .error (.tagOverflow r.tag)

namespace Butterfly

def isPowerOfTwo (n : Nat) : Bool := 1 <<< n.log2 = n

def partners (rank ranks : Nat) : List Nat :=
  (List.range ranks.log2).map fun step => rank ^^^ 1 <<< step

def partners? (rank ranks : Nat) : Except Error (List Nat) :=
  if isPowerOfTwo ranks then .ok (partners rank ranks) else .error (.notPowerOfTwo ranks)

/-- The pairs of one phase, in the order of the first: step `i` moves `size / 2 ^ (i + 1)` bytes
each way. -/
def halvings (rank ranks size : Nat) (tag : Tag) : List Pair :=
  (partners rank ranks).zipIdx.map fun (partner, step) =>
    { source := partner, recvSize := size >>> (step + 1),
      destination := partner, sendSize := size >>> (step + 1), tag }

def plan (r : Reduction) (secondTag : Tag) (ranks rank : Nat) : RankPlan :=
  .chained r.cost 0 none
    (halvings rank ranks r.size r.tag ++ (halvings rank ranks r.size secondTag).reverse)

def allreduce (r : Reduction) : Pattern := fun ranks => do
  if !isPowerOfTwo ranks then throw (.notPowerOfTwo ranks)
  let secondTag ← r.secondTag
  return plan r secondTag ranks

end Butterfly
end Collectives
