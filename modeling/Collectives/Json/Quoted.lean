import Collectives.Json.Numeral

/-!
# Quoted texts

A quoted text is first cut into characters and code units, which shows where it ends; whether its
code units make characters is a second question. Who skips a text does not ask it.
-/

namespace Collectives.Json

/-- A character, or a code unit of UTF-16 that was written by number. -/
inductive Piece where
  | char (c : Char)
  | unit (n : Nat)
  deriving DecidableEq, Repr

structure Quoted where
  pieces : List Piece
  flaw : Option Flaw
  deriving DecidableEq, Repr

namespace Quoted

def escaped? : Char → Option Char
  | '"' => some '"'
  | '\\' => some '\\'
  | '/' => some '/'
  | 'b' => some '\x08'
  | 'f' => some '\x0c'
  | 'n' => some '\n'
  | 'r' => some '\r'
  | 't' => some '\t'
  | _ => none

def hexValue? (c : Char) : Option Nat :=
  if '0' ≤ c ∧ c ≤ '9' then some (c.toNat - '0'.toNat)
  else if 'a' ≤ c ∧ c ≤ 'f' then some (c.toNat - 'a'.toNat + 10)
  else if 'A' ≤ c ∧ c ≤ 'F' then some (c.toNat - 'A'.toNat + 10)
  else none

def unit? (a b c d : Char) : Option Nat := do
  return ((16 * (← hexValue? a) + (← hexValue? b)) * 16 + (← hexValue? c)) * 16 + (← hexValue? d)

/-- The flaw of a code unit that has no four digits: a text with fewer than four bytes left is
truncated. -/
def unitFlaw (rest : List Char) : Flaw :=
  if (rest.take 4).foldl (fun bytes c => bytes + c.utf8Size) 0 < 4 then .truncated else .malformed

def cons (piece : Piece) (tail : Quoted × List Char) : Quoted × List Char :=
  ({ tail.1 with pieces := piece :: tail.1.pieces }, tail.2)

def cut (flaw : Flaw) : Quoted × List Char := (⟨[], some flaw⟩, [])

/-- Reads a text after its opening quote; nothing is left after a flaw. -/
def read : List Char → Quoted × List Char
  | [] => cut .truncated
  | '"' :: rest => (⟨[], none⟩, rest)
  | ['\\'] => cut .truncated
  | '\\' :: 'u' :: a :: b :: c :: d :: rest =>
    match unit? a b c d with
    | some n => cons (.unit n) (read rest)
    | none => cut (unitFlaw [a, b, c, d])
  | '\\' :: 'u' :: rest => cut (unitFlaw rest)
  | '\\' :: c :: rest =>
    match escaped? c with
    | some c => cons (.char c) (read rest)
    | none => cut .malformed
  | c :: rest => if c.toNat < 0x20 then cut .malformed else cons (.char c) (read rest)

def isHigh (n : Nat) : Bool := 0xD800 ≤ n && n < 0xDC00

def isLow (n : Nat) : Bool := 0xDC00 ≤ n && n < 0xE000

def paired (high low : Nat) : Char :=
  .ofNat (0x10000 + (high - 0xD800) * 0x400 + (low - 0xDC00))

/-- The characters of pieces, where `flaw` is what ends the text. The two code units of a pair have
to follow each other. -/
def characters (flaw : Option Flaw) : List Piece → Except Flaw (List Char)
  | [] => match flaw with
    | none => .ok []
    | some flaw => .error flaw
  | .char c :: rest => return c :: (← characters flaw rest)
  | .unit n :: rest =>
    if isLow n then .error .malformed
    else if isHigh n then
      match rest with
      | [] => .error (flaw.getD .malformed)
      | .char _ :: _ => .error .malformed
      | .unit low :: rest =>
        if isLow low then return paired n low :: (← characters flaw rest) else .error .malformed
    else return .ofNat n :: (← characters flaw rest)

def decode (quoted : Quoted) : Except Flaw String := do
  return .ofList (← characters quoted.flaw quoted.pieces)

end Quoted
end Collectives.Json
