import Collectives.Operation

/-!
# Flags

The command line is read from left to right up to the first thing that settles it: a request for
help, or something that is not allowed. Every flag takes one value, in the next argument or behind
`=`, and is given once at most.
-/

namespace Collectives.Command

inductive Flag where
  | config
  | collective
  | algorithm
  | commSize
  | datasize
  | tag
  | direction
  | windowSize
  | groupCount
  | computeTime
  | seed
  | format
  | output
  deriving DecidableEq, Repr

namespace Flag

def all : List Flag :=
  [config, collective, algorithm, commSize, datasize, tag, direction, windowSize, groupCount,
    computeTime, seed, format, output]

def name : Flag → String
  | config => "config"
  | collective => "collective"
  | algorithm => "algorithm"
  | commSize => "comm-size"
  | datasize => "datasize"
  | tag => "tag"
  | direction => "direction"
  | windowSize => "window-size"
  | groupCount => "num-comm-groups"
  | computeTime => "compute-time"
  | seed => "seed"
  | format => "format"
  | output => "output"

def placeholder : Flag → String
  | config => "CONFIG"
  | collective => "COLLECTIVE"
  | algorithm => "ALGORITHM"
  | commSize => "COMM_SIZE"
  | datasize => "DATASIZE"
  | tag => "TAG"
  | direction => "DIRECTION"
  | windowSize => "WINDOW_SIZE"
  | groupCount => "NUM_COMM_GROUPS"
  | computeTime => "COMPUTE_TIME"
  | seed => "SEED"
  | format => "FORMAT"
  | output => "OUTPUT"

def explanation : Flag → String
  | config => "Read the collective description from a JSON file; other flags override it"
  | collective =>
    "binomialtree, dissemination, allreduce, alltoall, multi_allreduce, multi_alltoall"
  | algorithm =>
    "Allreduce: ring, recdoub, datasize_based. Alltoall: windowed, balanced, unbalanced"
  | commSize => "Ranks per communicator"
  | datasize => "Payload size in bytes"
  | tag => "Base tag"
  | direction => "Binomial tree direction: reduce or bcast"
  | windowSize => "Concurrent exchanges per rank for windowed alltoall"
  | groupCount => "Number of independent groups for multi_* collectives"
  | computeTime => "Calc cost inserted after each allreduce receive"
  | seed => "Seed for unbalanced alltoall payload sizes"
  | format => "Output format: goal or json [default: goal]"
  | output => "Output file; stdout when omitted"

def ofName? (name : List Char) : Option Flag := all.find? (·.name.toList = name)

end Flag

structure Flags where
  config : Option String := none
  collective : Option String := none
  algorithm : Option String := none
  commSize : Option Nat := none
  datasize : Option Nat := none
  tag : Option Tag := none
  direction : Option String := none
  windowSize : Option Nat := none
  groupCount : Option Nat := none
  computeTime : Option Nat := none
  seed : Option Nat := none
  format : Option String := none
  output : Option String := none
  deriving DecidableEq, Repr

/-- A natural number below `bound` in decimal digits, perhaps after a plus sign. -/
def naturalBelow? (bound : Nat) (cs : List Char) : Option Nat :=
  let digits := match cs with
    | '+' :: rest => rest
    | _ => cs
  if digits.isEmpty ∨ !digits.all Char.isDigit then none
  else
    let n := digits.foldl (fun n digit => 10 * n + (digit.toNat - '0'.toNat)) 0
    if n < bound then some n else none

/-- A tag. It is read as a signed number, so that zero may have a minus sign. -/
def tag? (cs : List Char) : Option Tag :=
  match cs with
  | '-' :: digits => if !digits.isEmpty ∧ digits.all (· = '0') then some 0 else none
  | _ => (naturalBelow? UInt32.size cs).map .ofNat

def path? (value : String) : Option String := if value.isEmpty then none else some value

namespace Flags

def isGiven (flags : Flags) : Flag → Bool
  | .config => flags.config.isSome
  | .collective => flags.collective.isSome
  | .algorithm => flags.algorithm.isSome
  | .commSize => flags.commSize.isSome
  | .datasize => flags.datasize.isSome
  | .tag => flags.tag.isSome
  | .direction => flags.direction.isSome
  | .windowSize => flags.windowSize.isSome
  | .groupCount => flags.groupCount.isSome
  | .computeTime => flags.computeTime.isSome
  | .seed => flags.seed.isSome
  | .format => flags.format.isSome
  | .output => flags.output.isSome

def give (flags : Flags) (flag : Flag) (value : String) : Option Flags :=
  let word? := naturalBelow? UInt64.size value.toList
  match flag with
  | .config => (path? value).map fun path => { flags with config := some path }
  | .collective => some { flags with collective := some value }
  | .algorithm => some { flags with algorithm := some value }
  | .commSize => word?.map fun n => { flags with commSize := some n }
  | .datasize => word?.map fun n => { flags with datasize := some n }
  | .tag => (tag? value.toList).map fun tag => { flags with tag := some tag }
  | .direction => some { flags with direction := some value }
  | .windowSize => word?.map fun n => { flags with windowSize := some n }
  | .groupCount => word?.map fun n => { flags with groupCount := some n }
  | .computeTime => word?.map fun n => { flags with computeTime := some n }
  | .seed => word?.map fun n => { flags with seed := some n }
  | .format => some { flags with format := some value }
  | .output => (path? value).map fun path => { flags with output := some path }

end Flags

inductive Request where
  | compile (flags : Flags)
  | help
  | misuse
  deriving DecidableEq, Repr

inductive Argument where
  | flag (name : List Char) (value : Option String)
  | help
  /-- Two dashes: what follows are no flags. -/
  | separator
  | other
  deriving DecidableEq, Repr

def Argument.of (text : String) : Argument :=
  match text.toList with
  | ['-', '-'] => separator
  | '-' :: '-' :: cs =>
    let name := cs.takeWhile (· ≠ '=')
    match cs.dropWhile (· ≠ '=') with
    | _ :: value => flag name (some (.ofList value))
    | [] => if name = "help".toList then help else flag name none
  | '-' :: 'h' :: _ => help
  | _ => other

/-- Whether an argument can be the value of the flag before it: flags cannot. -/
def isValue (text : String) : Bool :=
  match text.toList with
  | '-' :: _ :: _ => false
  | _ => true

/-- Reads arguments after those that gave `flags`. -/
def Request.ofArguments (flags : Flags) : List String → Request
  | [] => compile flags
  | argument :: rest =>
    match Argument.of argument with
    | .help => help
    | .separator => if rest.isEmpty then compile flags else misuse
    | .other => misuse
    | .flag name value =>
      match Flag.ofName? name with
      | none => misuse
      | some flag =>
        if flags.isGiven flag then misuse
        else match value, rest with
        | some value, rest =>
          match flags.give flag value with
          | some flags => ofArguments flags rest
          | none => misuse
        | none, value :: rest =>
          if isValue value then
            match flags.give flag value with
            | some flags => ofArguments flags rest
            | none => misuse
          else misuse
        | none, [] => misuse

def Request.parse (arguments : List String) : Request := ofArguments {} arguments

def usage : String := "Usage: schedgen [OPTIONS]\n"

def flagHelp (flag : Flag) : String :=
  "      --" ++ flag.name ++ " <" ++ flag.placeholder ++ ">\n          " ++ flag.explanation ++ "\n"

def helpText : String :=
  "Compile a collective into per-rank send/recv schedules\n\n" ++ usage ++ "\nOptions:\n" ++
    .join (Flag.all.map flagHelp) ++ "  -h, --help\n          Print help\n"

end Collectives.Command
