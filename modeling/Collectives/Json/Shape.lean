import Collectives.Json.Tree
import Collectives.Text.Quoted

/-!
# Shapes

A shape reads a value of one kind from a tree and reports the first problem in the order of the
text: a flaw, or a value that is not what is wanted.
-/

namespace Collectives.Json

inductive Found where
  | null
  | boolean (b : Bool)
  | integer (n : Int)
  | fractional (x : Decimal.Double)
  | text (s : String)
  | sequence
  | map
  deriving DecidableEq, Repr

def Found.message : Found → String
  | null => "null"
  | boolean b => "boolean `" ++ (if b then "true" else "false") ++ "`"
  | integer n => "integer `" ++ n.repr ++ "`"
  | fractional x => "floating point `" ++ x.text ++ "`"
  | text s => "string " ++ Text.quoted s
  | sequence => "sequence"
  | map => "map"

inductive Mismatch where
  | invalidType (found : Found) (expected : String)
  | invalidValue (found : Int) (expected : String)
  | invalidLength (length : Nat) (expected : String)
  | missingField (name : String)
  | duplicateField (name : String)
  | unknownVariant (name expected : String)
  deriving DecidableEq, Repr

def Mismatch.message : Mismatch → String
  | invalidType found expected => "invalid type: " ++ found.message ++ ", expected " ++ expected
  | invalidValue found expected =>
    "invalid value: integer `" ++ found.repr ++ "`, expected " ++ expected
  | invalidLength length expected => "invalid length " ++ length.repr ++ ", expected " ++ expected
  | missingField name => "missing field `" ++ name ++ "`"
  | duplicateField name => "duplicate field `" ++ name ++ "`"
  | unknownVariant name expected => "unknown variant `" ++ name ++ "`, expected " ++ expected

inductive Problem where
  | flawed (flaw : Flaw)
  | mismatched (mismatch : Mismatch)
  deriving DecidableEq, Repr

abbrev Shape (α : Type) := Tree → Except Problem α

def Quoted.get (quoted : Quoted) : Except Problem String :=
  match quoted.decode with
  | .ok s => .ok s
  | .error flaw => .error (.flawed flaw)

/-- A quoted text that only has to end. -/
def Quoted.skip (quoted : Quoted) : Except Problem Unit :=
  match quoted.flaw with
  | none => .ok ()
  | some flaw => .error (.flawed flaw)

mutual

/-- The first flaw that who skips a tree comes across: it asks neither whether code units make
characters nor how large numbers are, and takes a numeral that breaks off for malformed. -/
def Tree.skip : Tree → Except Problem Unit
  | .null | .boolean _ => .ok ()
  | .number (.incomplete _) => .error (.flawed .malformed)
  | .number _ => .ok ()
  | .text t => t.skip
  | .array items => items.skip
  | .object members => members.skip
  | .broken flaw => .error (.flawed flaw)

def Items.skip : Items → Except Problem Unit
  | .stop .closed => .ok ()
  | .stop (.cut _ flaw) => .error (.flawed flaw)
  | .more item rest => do item.skip; rest.skip

def Members.skip : Members → Except Problem Unit
  | .stop none => .ok ()
  | .stop (some flaw) => .error (.flawed flaw)
  | .more key value rest => do key.skip; value.skip; rest.skip

end

def Tree.found : Tree → Except Problem Found
  | .null => .ok .null
  | .boolean b => .ok (.boolean b)
  | .number (.natural n) => .ok (.integer n)
  | .number (.negative n) => .ok (.integer (-n))
  | .number (.fractional x) => .ok (.fractional x)
  | .number .tooLarge => .error (.flawed .malformed)
  | .number (.incomplete flaw) => .error (.flawed flaw)
  | .text t => return .text (← t.get)
  | .array _ => .ok .sequence
  | .object _ => .ok .map
  | .broken flaw => .error (.flawed flaw)

def Tree.unexpected {α : Type} (tree : Tree) (expected : String) : Except Problem α := do
  throw (.mismatched (.invalidType (← tree.found) expected))

mutual

/-- The first flaw of a tree whose containers are at most `depth` deep; a deeper one is malformed
where it opens. -/
def Tree.scan (depth : Nat) : Tree → Except Problem Unit
  | .array items =>
    match depth with
    | 0 => .error (.flawed .malformed)
    | depth + 1 => items.scan depth
  | .object members =>
    match depth with
    | 0 => .error (.flawed .malformed)
    | depth + 1 => members.scan depth
  | .null => .ok ()
  | .boolean _ => .ok ()
  | .number n => do discard (Tree.number n).found
  | .text t => do discard t.get
  | .broken flaw => .error (.flawed flaw)

def Items.scan (depth : Nat) : Items → Except Problem Unit
  | .stop .closed => .ok ()
  | .stop (.cut _ flaw) => .error (.flawed flaw)
  | .more item rest => do item.scan depth; rest.scan depth

def Members.scan (depth : Nat) : Members → Except Problem Unit
  | .stop none => .ok ()
  | .stop (some flaw) => .error (.flawed flaw)
  | .more key value rest => do discard key.get; value.scan depth; rest.scan depth

end

namespace Shape

def natural (bound : Nat) (expected : String) : Shape Nat
  | .number (.natural n) =>
    if n < bound then .ok n else .error (.mismatched (.invalidValue n expected))
  | .number (.negative n) => .error (.mismatched (.invalidValue (-n) expected))
  | tree => tree.unexpected expected

def count : Shape Nat := natural UInt64.size "usize"

def word : Shape Nat := natural UInt64.size "u64"

def halfWord : Shape UInt32 := fun tree => return .ofNat (← natural UInt32.size "u32" tree)

def text : Shape String
  | .text t => t.get
  | tree => tree.unexpected "a string"

def optional {α : Type} (shape : Shape α) : Shape (Option α)
  | .null => .ok none
  | tree => return some (← shape tree)

def items {α : Type} (shape : Shape α) : Items → Except Problem (List α)
  | .stop .closed => .ok []
  | .stop (.cut _ flaw) => .error (.flawed flaw)
  | .more item rest => return (← shape item) :: (← items shape rest)

def sequence {α : Type} (shape : Shape α) : Shape (List α)
  | .array list => items shape list
  | tree => tree.unexpected "a sequence"

/-- Reads a whole text: the value, then nothing but blanks. -/
def read {α : Type} (shape : Shape α) (s : String) : Except Problem α := do
  let reading := Reading.of s
  let value ← shape reading.tree
  if reading.trailing then throw (.flawed .malformed)
  return value

end Shape
end Collectives.Json
