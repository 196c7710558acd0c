import Collectives.Json.Form
import Collectives.Trace.Document

/-!
# Reading trace documents

What an operation does is told by a member `kind`, which may stand anywhere among the members of
its record. So a record keeps all members that are not its own and sorts them out at its end.
-/

namespace Collectives.Trace

open Json (Entries Form Key Mismatch Problem Shape Slot Tree)

namespace Keys

def opRank : Key Nat := .required "rank" .count

def opIndex : Key Nat := .required "index" .count

end Keys

def opIdForm : Form := ⟨"struct OpId", [Keys.opRank.slot, Keys.opIndex.slot]⟩

def opIdShape : Shape OpId := fun tree => do
  let entries ← opIdForm.entries tree
  return { rank := ← Keys.opRank.get entries, index := ← Keys.opIndex.get entries }

namespace Keys

def peer : Key Nat := .required "peer" .count

def size : Key Nat := .required "size" .word

def tag : Key Tag := .required "tag" .halfWord

def cost : Key Nat := .required "cost" .word

def id : Key Nat := .required "id" .count

def requires : Key (List OpId) := .withDefault "requires" (.sequence opIdShape) []

end Keys

inductive ActionName where
  | send
  | recv
  | calc
  deriving DecidableEq, Repr

def ActionName.shape : Shape ActionName
  | .text t => do
    match ← t.get with
    | "send" => return .send
    | "recv" => return .recv
    | "calc" => return .calc
    | name =>
      throw (.mismatched (.unknownVariant name "one of `send`, `recv`, `calc`"))
  | .number (.natural 0) => return .send
  | .number (.natural 1) => return .recv
  | .number (.natural 2) => return .calc
  | .number (.natural n) => .error (.mismatched (.invalidValue n "variant index 0 <= i < 3"))
  | tree => tree.unexpected "variant identifier"

def ActionName.slots : ActionName → List Slot
  | .send | .recv => [Keys.peer.slot, Keys.size.slot, Keys.tag.slot]
  | .calc => [Keys.cost.slot]

def ActionName.action (name : ActionName) (entries : Entries) : Except Problem Action := do
  Json.checkEntries name.slots [] entries
  match name with
  | .send =>
    return .send (← Keys.peer.get entries) (← Keys.size.get entries) (← Keys.tag.get entries)
  | .recv =>
    return .recv (← Keys.peer.get entries) (← Keys.size.get entries) (← Keys.tag.get entries)
  | .calc => return .calc (← Keys.cost.get entries)

/-- Sorts out the members that a record does not use itself. -/
def actionOf (entries : Entries) : Except Problem Action := do
  match entries.filter (·.1 = "kind") with
  | [] => throw (.mismatched (.missingField "kind"))
  | (_, tree) :: more =>
    let name ← ActionName.shape tree
    if !more.isEmpty then throw (.mismatched (.duplicateField "kind"))
    name.action entries

/-- How deep the containers in a member may be that a record keeps: with the five containers around
it, a text may be 127 deep. -/
def keptDepth : Nat := 122

def Record.shape : Shape Record
  | .object members => do
    let entries ← members.entries [Keys.id.slot, Keys.requires.slot] (Tree.scan keptDepth) []
    let id ← Keys.id.get entries
    let action ← actionOf (entries.filter fun (name, _) => name ≠ "id" ∧ name ≠ "requires")
    return { id, action, requires := ← Keys.requires.get entries }
  | tree => tree.unexpected "struct OpRecord"

namespace Keys

def rank : Key Nat := .required "rank" .count

def ops : Key (List Record) := .required "ops" (.sequence Record.shape)

end Keys

def RankRecord.form : Form := ⟨"struct RankTrace", [Keys.rank.slot, Keys.ops.slot]⟩

def RankRecord.shape : Shape RankRecord := fun tree => do
  let entries ← form.entries tree
  return { rank := ← Keys.rank.get entries, ops := ← Keys.ops.get entries }

namespace Keys

def schemaVersion : Key UInt32 := .required "schema_version" .halfWord

def rankCount : Key Nat := .required "num_ranks" .count

def ranks : Key (List RankRecord) := .required "ranks" (.sequence RankRecord.shape)

end Keys

def Document.form : Form where
  name := "struct TraceDoc"
  slots := [Keys.schemaVersion.slot, Keys.rankCount.slot, Keys.ranks.slot]

def Document.shape : Shape Document := fun tree => do
  let entries ← form.entries tree
  return {
    schemaVersion := ← Keys.schemaVersion.get entries
    rankCount := ← Keys.rankCount.get entries
    ranks := ← Keys.ranks.get entries }

def Document.read (text : String) : Except Problem Document := Document.shape.read text

end Collectives.Trace
