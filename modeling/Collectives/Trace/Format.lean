import Collectives.Text.Name
import Collectives.Trace.Document
import Collectives.Trace.Goal

/-!
# Trace formats and sinks

A trace is written piece by piece. A sink may run out of room; then it holds the first part of the
text and nothing is written after it. The text of a trace is ASCII, so a character takes one byte.
-/

namespace Collectives.Trace

inductive Format where
  | goal
  | json
  deriving DecidableEq, Repr

namespace Format

def parse (name : String) : Except Error Format :=
  match Text.lowered name with
  | "goal" => .ok .goal
  | "json" => .ok .json
  | _ => .error (.unknownFormat name)

def pieces (format : Format) (s : Schedule) : List String :=
  match format with
  | .goal => (GoalLine.ofSchedule s).map GoalLine.text
  | .json => (Document.ofSchedule s).value.pieces .pretty 0 ++ ["\n"]

def text (format : Format) (s : Schedule) : String := .join (format.pieces s)

end Format

/-- A place for text that takes `room` more characters. -/
structure Sink where
  written : String := ""
  room : Nat
  deriving DecidableEq, Repr

namespace Sink

def put (sink : Sink) (piece : String) : Bool × Sink :=
  let cs := piece.toList
  (cs.length ≤ sink.room,
    { written := sink.written ++ .ofList (cs.take sink.room), room := sink.room - cs.length })

/-- Writes pieces up to the first that does not fit. -/
def putAll (sink : Sink) : List String → Bool × Sink
  | [] => (true, sink)
  | piece :: pieces =>
    match sink.put piece with
    | (true, sink) => putAll sink pieces
    | (false, sink) => (false, sink)

end Sink

/-- Writes a schedule; says whether the sink took all of it. -/
def Format.write (format : Format) (s : Schedule) (sink : Sink) : Bool × Sink :=
  sink.putAll (format.pieces s)

end Collectives.Trace
