/-!
# Shortest decimals

The decimal number with the fewest digits that a double-precision number is the nearest to, and its
text.
-/

namespace Collectives.Decimal

/-- A finite double-precision number by its bits. -/
structure Double where
  bits : UInt64
  deriving DecidableEq, Repr

namespace Double

def isNegative (x : Double) : Bool := x.bits.toNat >>> 63 = 1

def exponentField (x : Double) : Nat := x.bits.toNat >>> 52 % 0x800

def fractionField (x : Double) : Nat := x.bits.toNat % 1 <<< 52

/-- The absolute value is `significand * 2 ^ exponent`. -/
def significand (x : Double) : Nat :=
  if x.exponentField = 0 then x.fractionField else x.fractionField + 1 <<< 52

def exponent (x : Double) : Int := (max x.exponentField 1 : Nat) - 1075

/-- Whether the next number toward zero is half as far away as the next one from zero. -/
def hasCloseNeighbour (x : Double) : Bool := x.fractionField = 0 ∧ 1 < x.exponentField

end Double

/-- The decimal number `digits * 10 ^ exponent`. -/
structure Scaled where
  digits : Nat
  exponent : Int
  deriving DecidableEq, Repr

/-- The numbers that are rounded to one number, as multiples of a quarter of its last binary
digit: the number itself is `4 * significand` of them. -/
structure Interval where
  low : Nat
  middle : Nat
  high : Nat
  closed : Bool
  deriving DecidableEq, Repr

def Interval.of (x : Double) : Interval where
  low := 4 * x.significand - (if x.hasCloseNeighbour then 1 else 2)
  middle := 4 * x.significand
  high := 4 * x.significand + 2
  closed := x.significand % 2 = 0

def Interval.scale (i : Interval) (factor : Nat) : Interval :=
  { i with low := i.low * factor, middle := i.middle * factor, high := i.high * factor }

def Interval.contains (i : Interval) (n : Nat) : Bool :=
  if i.closed then i.low ≤ n && n ≤ i.high else i.low < n && n < i.high

/-- The multiple of `unit` in the interval that is nearest to its middle, if there is one: one of
the two around the middle, and of two that are as near the even one. -/
def Interval.multiple? (i : Interval) (unit : Nat) : Option Nat :=
  let below := i.middle / unit
  let above := below + 1
  match i.contains (below * unit), i.contains (above * unit) with
  | true, true =>
    let down := i.middle - below * unit
    let up := above * unit - i.middle
    if down < up ∨ (down = up ∧ below % 2 = 0) then some below else some above
  | true, false => some below
  | false, true => some above
  | false, false => none

/-- The multiple of `10 ^ place` nearest to the middle of an interval whose bounds count units of
`2 ^ binary`, if it lies in the interval. -/
def multipleAt (i : Interval) (binary place : Int) : Option Nat :=
  let scaled := i.scale (Nat.pow 10 (-place).toNat <<< binary.toNat)
  scaled.multiple? (Nat.pow 10 place.toNat <<< (-binary).toNat)

/-- The first place from `place` downward that has a decimal number in the interval, within
`count` places. -/
def search (i : Interval) (binary : Int) : (count : Nat) → (place : Int) → Option Scaled
  | 0, _ => none
  | count + 1, place =>
    match multipleAt i binary place with
    | some digits => if digits = 0 then search i binary count (place - 1) else some ⟨digits, place⟩
    | none => search i binary count (place - 1)

/-- The shortest decimal number for a positive number: no number of double precision reaches
`10 ^ 309` or has a digit below `10 ^ -324`. -/
def shortest (x : Double) : Scaled :=
  (search (.of x) (x.exponent - 2) 640 309).getD ⟨0, 0⟩

structure Style where
  /-- The least and the greatest exponent that is written with places only. -/
  leastPlain : Int
  greatestPlain : Int
  deriving DecidableEq, Repr

def render (style : Style) (digits : List Char) (exponent : Int) : List Char :=
  if style.leastPlain ≤ exponent ∧ exponent ≤ style.greatestPlain then
    if exponent < 0 then
      ['0', '.'] ++ List.replicate (-exponent - 1).toNat '0' ++ digits
    else
      let whole := exponent.toNat + 1
      let rest := digits.drop whole
      digits.take whole ++ List.replicate (whole - digits.length) '0' ++ '.' ::
        (if rest.isEmpty then ['0'] else rest)
  else
    let sign := if exponent < 0 then '-' else '+'
    digits.take 1 ++ (if digits.length ≤ 1 then [] else '.' :: digits.drop 1) ++ ['e', sign] ++
      Nat.toDigits 10 exponent.natAbs

/-- Numbers keep a fraction; exponents from -5 to 15 are written with places, others with a
sign. -/
def plainStyle : Style := ⟨-5, 15⟩

def Double.text (x : Double) : String :=
  let sign := if x.isNegative then ['-'] else []
  if x.significand = 0 then .ofList (sign ++ ['0', '.', '0'])
  else
    let decimal := shortest x
    let digits := Nat.toDigits 10 decimal.digits
    .ofList (sign ++ render plainStyle digits (decimal.exponent + digits.length - 1))

end Collectives.Decimal
