import Collectives.Json.Form
import Collectives.Json.Value
import Collectives.Spec

/-!
# Descriptions as JSON

The fields of a description, how they are read and how they are written.
-/

namespace Collectives.Spec

open Json (Form Key Problem Shape Value)

namespace Keys

def collective : Key String := .required "collective" .text

def algorithm : Key (Option String) := .withDefault "algorithm" (.optional .text) none

def commSize : Key Nat := .required "comm_size" .count

def datasize : Key Nat := .required "datasize" .word

def tag : Key Tag := .withDefault "tag" .halfWord 0

def direction : Key (Option String) := .withDefault "direction" (.optional .text) none

def windowSize : Key Nat := .withDefault "window_size" .count 1

def groupCount : Key Nat := .withDefault "num_comm_groups" .count 1

def computeTime : Key Nat := .withDefault "compute_time" .word 0

def seed : Key (Option Nat) := .withDefault "seed" (.optional .word) none

end Keys

/-- The fields in the order in which an array holds them. -/
def form : Form where
  name := "struct CollectiveSpec"
  slots := [Keys.collective.slot, Keys.algorithm.slot, Keys.commSize.slot,
    Keys.datasize.slot, Keys.tag.slot, Keys.direction.slot, Keys.windowSize.slot,
    Keys.groupCount.slot, Keys.computeTime.slot, Keys.seed.slot]

def shape : Shape Spec := fun tree => do
  let entries ← form.entries tree
  return {
    collective := ← Keys.collective.get entries
    algorithm := ← Keys.algorithm.get entries
    commSize := ← Keys.commSize.get entries
    datasize := ← Keys.datasize.get entries
    tag := ← Keys.tag.get entries
    direction := ← Keys.direction.get entries
    windowSize := ← Keys.windowSize.get entries
    groupCount := ← Keys.groupCount.get entries
    computeTime := ← Keys.computeTime.get entries
    seed := ← Keys.seed.get entries }

def read (text : String) : Except Problem Spec := shape.read text

def optionalValue {α : Type} (value : α → Value) : Option α → Value
  | some a => value a
  | none => .null

def value (spec : Spec) : Value :=
  .object [("collective", .text spec.collective),
    ("algorithm", optionalValue .text spec.algorithm),
    ("comm_size", .number spec.commSize), ("datasize", .number spec.datasize),
    ("tag", .number spec.tag.toNat), ("direction", optionalValue .text spec.direction),
    ("window_size", .number spec.windowSize), ("num_comm_groups", .number spec.groupCount),
    ("compute_time", .number spec.computeTime), ("seed", optionalValue .number spec.seed)]

end Collectives.Spec
