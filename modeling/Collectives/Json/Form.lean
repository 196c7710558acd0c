import Collectives.Json.Shape

/-!
# Forms

A form is a list of named fields, read from an object with the fields in any order or from an array
with the fields in the order of the form. All values are looked at where they stand; afterwards they
are found by name.
-/

namespace Collectives.Json

abbrev Entries := List (String × Tree)

structure Slot where
  name : String
  required : Bool
  check : Tree → Except Problem Unit

/-- A field by its name in the text and the shape of its value; one with a default may be
missing. -/
structure Key (α : Type) where
  name : String
  shape : Shape α
  default : Option α

namespace Key

variable {α : Type}

def required (name : String) (shape : Shape α) : Key α := ⟨name, shape, none⟩

def withDefault (name : String) (shape : Shape α) (default : α) : Key α :=
  ⟨name, shape, some default⟩

def slot (key : Key α) : Slot where
  name := key.name
  required := key.default.isNone
  check tree := do discard (key.shape tree)

def get (key : Key α) (entries : Entries) : Except Problem α :=
  match entries.lookup key.name, key.default with
  | some tree, _ => key.shape tree
  | none, some default => .ok default
  | none, none => .error (.mismatched (.missingField key.name))

end Key

/-- Checks a member behind members called `seen`. One without a slot is left to `pass`. -/
def checkEntry (slots : List Slot) (pass : Tree → Except Problem Unit) (seen : List String)
    (name : String) (value : Tree) : Except Problem Unit :=
  match slots.find? (·.name = name) with
  | none => pass value
  | some slot =>
    if name ∈ seen then .error (.mismatched (.duplicateField name)) else slot.check value

def Members.entries (slots : List Slot) (pass : Tree → Except Problem Unit) (seen : List String) :
    Members → Except Problem Entries
  | .stop none => .ok []
  | .stop (some flaw) => .error (.flawed flaw)
  | .more key value rest => do
    let name ← key.get
    checkEntry slots pass seen name value
    return (name, value) :: (← rest.entries slots pass (name :: seen))

/-- Reads the items of an array as fields, the first of them at `index`. Fields with a default may
be missing at the end. -/
def Items.entries (expected : String) : (index : Nat) → List Slot → Items → Except Problem Entries
  | _, [], .stop .closed => .ok []
  | _, [], .stop (.cut false flaw) => .error (.flawed flaw)
  | _, [], .stop (.cut true _) => .error (.flawed .malformed)
  | _, [], .more _ _ => .error (.flawed .malformed)
  | index, slot :: slots, .stop .closed =>
    if slot.required then .error (.mismatched (.invalidLength index expected))
    else Items.entries expected (index + 1) slots (.stop .closed)
  | _, _ :: _, .stop (.cut _ flaw) => .error (.flawed flaw)
  | index, slot :: slots, .more item rest => do
    slot.check item
    return (slot.name, item) :: (← Items.entries expected (index + 1) slots rest)

structure Form where
  name : String
  slots : List Slot

/-- Reads a form; members that it does not know are skipped. -/
def Form.entries (form : Form) : Tree → Except Problem Entries
  | .object members => members.entries form.slots Tree.skip []
  | .array items =>
    items.entries (form.name ++ " with " ++ form.slots.length.repr ++ " elements") 0 form.slots
  | tree => tree.unexpected form.name

def checkEntries (slots : List Slot) (seen : List String) : Entries → Except Problem Unit
  | [] => .ok ()
  | (name, value) :: rest => do
    checkEntry slots (fun _ => .ok ()) seen name value
    checkEntries slots (name :: seen) rest

end Collectives.Json
