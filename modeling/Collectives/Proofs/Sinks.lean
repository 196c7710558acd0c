import Collectives.Trace.Format

/-!
# Sinks

To write pieces one after another is to write their text at once: both stop where the room ends. A
trace is therefore in a sink as far as the room goes, and reported as written if that is all of it.
-/

namespace Collectives.Trace

namespace Sink

variable {written text : String} {room : Nat}

theorem put_of_fits (h : text.length ≤ room) :
    put ⟨written, room⟩ text = (true, ⟨written ++ text, room - text.length⟩) := by
  rw [← String.length_toList] at h ⊢
  simp [put, h, List.take_of_length_le]

theorem put_of_not_fits (h : room < text.length) :
    put ⟨written, room⟩ text = (false, ⟨written ++ .ofList (text.toList.take room), 0⟩) := by
  rw [← String.length_toList] at h
  simp [put, Nat.not_le.2 h, Nat.sub_eq_zero_of_le (Nat.le_of_lt h)]

theorem put_empty (sink : Sink) : sink.put "" = (true, sink) := by
  simp [put]

/-- A text goes in part by part, the second after the first. -/
theorem put_append (sink : Sink) (first second : String) :
    sink.put (first ++ second) =
      match sink.put first with
      | (true, sink) => sink.put second
      | (false, sink) => (false, sink) := by
  obtain ⟨written, room⟩ := sink
  have hlength := String.length_append first second
  rcases Nat.lt_or_ge room first.length with hfirst | hfirst
  · rw [put_of_not_fits hfirst, put_of_not_fits (by omega), String.toList_append,
      List.take_append_of_le_length (by rw [String.length_toList]; omega)]
  rw [put_of_fits hfirst]
  rcases Nat.lt_or_ge (room - first.length) second.length with hsecond | hsecond
  · simp only [put_of_not_fits hsecond]
    rw [put_of_not_fits (by omega), String.toList_append, List.take_append, String.length_toList,
      List.take_of_length_le (by rwa [String.length_toList]), String.ofList_append,
      String.ofList_toList, String.append_assoc]
  · simp only [put_of_fits hsecond]
    rw [put_of_fits (by omega), hlength, String.append_assoc, Nat.sub_sub]

theorem putAll_eq_put (sink : Sink) (pieces : List String) :
    sink.putAll pieces = sink.put (.join pieces) := by
  induction pieces generalizing sink with
  | nil => exact (put_empty sink).symm
  | cons piece pieces ih =>
    rw [putAll, String.join_cons, put_append]
    rcases sink.put piece with ⟨taken, sink⟩
    cases taken with
    | true => exact ih sink
    | false => rfl

end Sink

/-- Writing a trace piece by piece is writing its text. -/
theorem Format.write_eq_put (format : Format) (s : Schedule) (sink : Sink) :
    format.write s sink = sink.put (format.text s) :=
  sink.putAll_eq_put (format.pieces s)

end Collectives.Trace
