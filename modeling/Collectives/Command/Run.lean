import Collectives.Command.Flags
import Collectives.Spec.Document
import Collectives.Trace.Format

/-!
# Running the command

The program reads a description, builds its schedule and writes the trace, through whatever host
provides files and a screen. Nothing is written before everything else has succeeded.
-/

namespace Collectives.Command

inductive FileProblem where
  | notFound
  | denied
  | notDirectory
  | isDirectory
  | full
  | nameTooLong
  | notUnicode
  | other (message : String)
  deriving DecidableEq, Repr

def FileProblem.message : FileProblem → String
  | notFound => "No such file or directory (os error 2)"
  | denied => "Permission denied (os error 13)"
  | notDirectory => "Not a directory (os error 20)"
  | isDirectory => "Is a directory (os error 21)"
  | full => "No space left on device (os error 28)"
  | nameTooLong => "File name too long (os error 36)"
  | notUnicode => "stream did not contain valid UTF-8"
  | other message => message

def decoded (bytes : ByteArray) : Except FileProblem String :=
  match String.fromUTF8? bytes with
  | some text => .ok text
  | none => .error .notUnicode

/-- What the program needs from where it runs. -/
structure Host (m : Type → Type) where
  read : String → m (Except FileProblem String)
  write : (path text : String) → m (Except FileProblem Unit)
  print : String → m (Except FileProblem Unit)
  /-- Words to draw from where the description has no seed. -/
  entropy : m Random.Words

inductive Stop where
  | format (error : Error)
  | missing (flag : Flag)
  | unreadable (path : String) (problem : FileProblem)
  | unparsable (path : String) (problem : Json.Problem)
  | unbuildable (failure : Failure)
  | unwritable (problem : FileProblem)
  deriving DecidableEq, Repr

def problemMessage : Json.Problem → String
  | .flawed .malformed => "malformed JSON"
  | .flawed .truncated => "the text ends too early"
  | .mismatched mismatch => mismatch.message

def Stop.message : Stop → String
  | format error => error.message
  | missing flag => "missing --" ++ flag.name ++ " (and no --config given)"
  | unreadable path problem => "read " ++ path ++ ": " ++ problem.message
  | unparsable path problem => "parse " ++ path ++ ": " ++ problemMessage problem
  | unbuildable failure => failure.message
  | unwritable problem => "write output: " ++ problem.message

def Flags.override (flags : Flags) (spec : Spec) : Spec where
  collective := flags.collective.getD spec.collective
  algorithm := flags.algorithm.or spec.algorithm
  commSize := flags.commSize.getD spec.commSize
  datasize := flags.datasize.getD spec.datasize
  tag := flags.tag.getD spec.tag
  direction := flags.direction.or spec.direction
  windowSize := flags.windowSize.getD spec.windowSize
  groupCount := flags.groupCount.getD spec.groupCount
  computeTime := flags.computeTime.getD spec.computeTime
  seed := flags.seed.or spec.seed

/-- The description that flags alone make: three of them are needed. -/
def Flags.spec (flags : Flags) : Except Stop Spec :=
  match flags.collective, flags.commSize, flags.datasize with
  | some collective, some commSize, some datasize =>
    .ok (flags.override { collective, commSize, datasize })
  | none, _, _ => .error (.missing .collective)
  | _, none, _ => .error (.missing .commSize)
  | _, _, none => .error (.missing .datasize)

/-- The description that flags make together with the text of the file at `path`, if it could be
read. -/
def Flags.specFrom (flags : Flags) (path : String) (content : Except FileProblem String) :
    Except Stop Spec :=
  match content with
  | .error problem => .error (.unreadable path problem)
  | .ok text =>
    match Spec.read text with
    | .error problem => .error (.unparsable path problem)
    | .ok spec => .ok (flags.override spec)

section

variable {m : Type → Type} [Monad m]

def load (host : Host m) (flags : Flags) : m (Except Stop Spec) := do
  match flags.config with
  | none => return flags.spec
  | some path => return flags.specFrom path (← host.read path)

def emit (host : Host m) (flags : Flags) (text : String) : m (Except Stop Unit) := do
  let result ← match flags.output with
    | none => host.print text
    | some path => host.write path text
  return result.mapError .unwritable

/-- Goes through the stages: the format, the description, the schedule, the trace. -/
def compile (host : Host m) (flags : Flags) : m (Except Stop Unit) := do
  match Trace.Format.parse (flags.format.getD "goal") with
  | .error error => return .error (.format error)
  | .ok format =>
    match ← load host flags with
    | .error stop => return .error stop
    | .ok spec =>
      match spec.build (← host.entropy) with
      | .error failure => return .error (.unbuildable failure)
      | .ok schedule => emit host flags (format.text schedule)

inductive Outcome where
  | done
  | helped
  | misused
  | stopped (stop : Stop)
  deriving DecidableEq, Repr

def Outcome.exitCode : Outcome → UInt32
  | done | helped => 0
  | misused | stopped _ => 2

def Outcome.complaint : Outcome → String
  | done | helped => ""
  | misused => usage
  | stopped stop => "error: " ++ stop.message ++ "\n"

def run (host : Host m) (arguments : List String) : m Outcome := do
  match Request.parse arguments with
  | .misuse => return .misused
  | .help =>
    let _ ← host.print helpText
    return .helped
  | .compile flags =>
    match ← compile host flags with
    | .ok () => return .done
    | .error stop => return .stopped stop

end

end Collectives.Command
