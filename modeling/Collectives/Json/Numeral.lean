import Collectives.Decimal.Shortest

/-!
# Numerals

A JSON numeral is an integer of 64 bits where it can be. Otherwise it is a number of double
precision: the digits that fit into 64 bits, times or divided by a power of ten, both rounded.
-/

namespace Collectives.Json

/-- What is wrong with a text: a character that cannot stand where it does, or no more characters
where some have to follow. -/
inductive Flaw where
  | malformed
  | truncated
  deriving DecidableEq, Repr

def Flaw.at (rest : List Char) : Flaw := if rest.isEmpty then .truncated else .malformed

inductive Numeral where
  | natural (n : Nat)
  /-- The number `-n`, where `0 < n`. -/
  | negative (n : Nat)
  | fractional (x : Decimal.Double)
  | tooLarge
  | incomplete (flaw : Flaw)
  deriving DecidableEq, Repr

namespace Numeral

def digitValue (c : Char) : Nat := c.toNat - '0'.toNat

/-- Appends digits to `significand` as long as it stays below `2 ^ 64`; the other digits are
returned. -/
def accumulate (significand : Nat) : List Char → Nat × List Char
  | [] => (significand, [])
  | digit :: rest =>
    let longer := 10 * significand + digitValue digit
    if longer < UInt64.size then accumulate longer rest else (significand, digit :: rest)

def powerOfTen (exponent : Nat) : Float := Float.ofScientific 1 false exponent

/-- `significand * 10 ^ exponent` in double precision; none if that is too large. -/
def scale (significand : Nat) (exponent : Int) : Option Float :=
  let x := (UInt64.ofNat significand).toFloat
  if 0 ≤ exponent then
    if exponent ≤ 308 then
      let product := x * powerOfTen exponent.toNat
      if product.isInf then none else some product
    else if significand = 0 then some x
    else none
  else
    let places := (-exponent).toNat
    if places ≤ 308 then some (x / powerOfTen places)
    else if places ≤ 616 then some (x / powerOfTen 308 / powerOfTen (places - 308))
    else some 0

/-- The parts of a numeral; a numeral without a point has no fraction digits. -/
structure Parts where
  minus : Bool
  whole : List Char
  fraction : List Char := []
  exponent : Option Int := none
  deriving DecidableEq, Repr

def Parts.value (parts : Parts) : Numeral :=
  let (significand, dropped) := accumulate 0 parts.whole
  let floating (significand : Nat) (exponent : Int) : Numeral :=
    match scale significand exponent with
    | some x => .fractional ⟨(if parts.minus then -x else x).toBits⟩
    | none => .tooLarge
  if parts.fraction.isEmpty ∧ parts.exponent.isNone ∧ dropped.isEmpty then
    if !parts.minus then .natural significand
    else if 0 < significand ∧ significand ≤ UInt64.size / 2 then .negative significand
    else floating significand 0
  else
    let (longer, ignored) := accumulate significand parts.fraction
    floating longer
      (dropped.length - (parts.fraction.length - ignored.length : Nat) + parts.exponent.getD 0)

def readExponent (cs : List Char) : Except Flaw (Int × List Char) :=
  let (below, cs) := match cs with
    | '-' :: rest => (true, rest)
    | '+' :: rest => (false, rest)
    | _ => (false, cs)
  let digits := cs.takeWhile Char.isDigit
  let rest := cs.dropWhile Char.isDigit
  if digits.isEmpty then .error (.at rest)
  else
    let size := digits.foldl (fun n digit => 10 * n + digitValue digit) 0
    .ok (if below then -(size : Int) else size, rest)

def readTail (parts : Parts) (cs : List Char) : Except Flaw (Parts × List Char) := do
  let (parts, cs) ← match cs with
    | '.' :: rest =>
      let fraction := rest.takeWhile Char.isDigit
      let rest := rest.dropWhile Char.isDigit
      if fraction.isEmpty then throw (.at rest)
      pure ({ parts with fraction }, rest)
    | _ => pure (parts, cs)
  match cs with
  | 'e' :: rest | 'E' :: rest =>
    let (exponent, rest) ← readExponent rest
    return ({ parts with exponent }, rest)
  | _ => return (parts, cs)

/-- Reads the parts of a numeral. A zero does not lead other digits. -/
def readParts (cs : List Char) : Except Flaw (Parts × List Char) :=
  let (minus, cs) := match cs with
    | '-' :: rest => (true, rest)
    | _ => (false, cs)
  let whole := cs.takeWhile Char.isDigit
  let rest := cs.dropWhile Char.isDigit
  match whole with
  | [] => .error (.at rest)
  | '0' :: _ :: _ => .error .malformed
  | _ => readTail { minus, whole } rest

/-- Reads a numeral; nothing is left after an incomplete one. -/
def read (cs : List Char) : Numeral × List Char :=
  match readParts cs with
  | .ok (parts, rest) => (parts.value, rest)
  | .error flaw => (.incomplete flaw, [])

end Numeral
end Collectives.Json
