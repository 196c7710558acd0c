import Collectives.Command.Run

/-!
# The program

The command line on the files and streams of the machine.
-/

namespace Collectives.Command

/-- The number that the system gave to a failure; some operations turn its sign. -/
def systemNumber? (failure : IO.Error) : Option Nat :=
  let number? : Option UInt32 := match failure with
    | .noFileOrDirectory _ number _ | .permissionDenied _ number _ | .inappropriateType _ number _
    | .invalidArgument _ number _ | .resourceExhausted _ number _ => some number
    | _ => none
  number?.map fun number => min number.toNat (-number).toNat

def FileProblem.ofFailure (failure : IO.Error) : FileProblem :=
  match systemNumber? failure with
  | some 2 => .notFound
  | some 13 => .denied
  | some 20 => .notDirectory
  | some 21 => .isDirectory
  | some 28 => .full
  | some 36 => .nameTooLong
  | _ => .other (toString failure)

def guarded {α : Type} (action : IO α) : IO (Except FileProblem α) := do
  try
    return .ok (← action)
  catch failure =>
    return .error (.ofFailure failure)

def readText (path : String) : IO (Except FileProblem String) := do
  match ← guarded (IO.FS.readBinFile path) with
  | .error problem => return .error problem
  | .ok bytes => return decoded bytes

def machine : Host IO where
  read := readText
  write path text := guarded (IO.FS.withFile path .write fun file => do
    file.putStr text
    file.flush)
  print text := guarded do
    let out ← IO.getStdout
    out.putStr text
    out.flush
  entropy := do
    let bytes ← IO.getRandomBytes 8
    let seed := bytes.toList.foldl (fun n byte => 256 * n + byte.toNat) 0
    return Random.ChaCha.seeded (.ofNat seed)

end Collectives.Command

def main (arguments : List String) : IO UInt32 := do
  let outcome ← Collectives.Command.run Collectives.Command.machine arguments
  IO.eprint outcome.complaint
  return outcome.exitCode
