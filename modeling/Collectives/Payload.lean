import Collectives.Random.Words

/-!
# Unbalanced payloads

The sizes of an unbalanced all-to-all: each is the wanted size plus a tenth, rounded as
double-precision numbers are, of a number drawn from plus or minus the wanted size.
-/

namespace Collectives.Payload

/-- The greatest size: sizes are computed as signed 64-bit numbers. -/
def greatest : Nat := UInt64.size / 2 - 1

/-- `n` with its first 53 binary digits only, rounded to the nearest; a tie goes to the even. -/
def roundDigits (n : Nat) : Nat :=
  let lost := n.log2 + 1 - 53
  let kept := n >>> lost
  let rest := n % 1 <<< lost
  let up := 1 <<< lost < 2 * rest ∨ (1 <<< lost = 2 * rest ∧ kept % 2 = 1)
  (if up then kept + 1 else kept) <<< lost

/-- The double-precision number next to 0.1, in units of `2 ^ -55`. -/
def tenthUnits : Nat := 3602879701896397

/-- The whole part of a tenth of `n`, with `n` and the product rounded to double precision. -/
def tenth (n : Nat) : Nat := roundDigits (roundDigits n * tenthUnits) >>> 55

def jitter (x : Int) : Int := if x < 0 then -(tenth x.natAbs : Int) else tenth x.natAbs

def span (size : Nat) : Nat := min size greatest

def draw (words : Random.Words) (size : Nat) : Random.Draw Nat := do
  let x ← Random.uniform words (span size)
  return (min ((span size : Int) + jitter x) greatest).toNat

/-- The size of what each rank (row) sends to each rank (column), drawn row by row. -/
def matrix (words : Random.Words) (ranks size : Nat) : Random.Draw (List (List Nat)) :=
  (List.replicate ranks ()).mapM fun _ => (List.replicate ranks ()).mapM fun _ => draw words size

end Collectives.Payload
