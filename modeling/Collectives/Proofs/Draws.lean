import Collectives.Proofs.CompleteExchange
import Mathlib.Logic.Function.Iterate

/-!
# Repeated draws

Drawing the same thing several times from one source of words gives a list; each draw begins where
the one before it ended. A matrix is drawn this way, and so it is always square.
-/

namespace Collectives

namespace Random

/-- Where the draw number `index` begins when the first begins at `start`. -/
def Draw.startOf {α : Type} (draw : Draw α) (start index : Nat) : Nat :=
  (fun position => (draw.run position).2)^[index] start

theorem Draw.startOf_succ {α : Type} (draw : Draw α) (start index : Nat) :
    draw.startOf start (index + 1) = draw.startOf (draw.run start).2 index :=
  Function.iterate_succ_apply _ index start

theorem Draw.run_replicate {α : Type} (draw : Draw α) (count start : Nat) :
    ((List.replicate count ()).mapM fun _ => draw).run start =
      ((List.range count).map fun index => (draw.run (draw.startOf start index)).1,
        draw.startOf start count) := by
  induction count generalizing start with
  | zero => rfl
  | succ count ih =>
    have hrest := ih (draw.run start).2
    rw [List.range_succ_eq_map, List.map_cons, List.map_map, startOf_succ]
    simp only [Function.comp_def, startOf_succ]
    rw [List.replicate_succ, List.mapM_cons]
    exact congrArg (fun rest : List α × Nat => ((draw.run start).1 :: rest.1, rest.2)) hrest

theorem Draw.getD_run_replicate {α : Type} (draw : Draw α) {count index : Nat}
    (hindex : index < count) (start : Nat) (default : α) :
    (((List.replicate count ()).mapM fun _ => draw).run start).1.getD index default =
      (draw.run (draw.startOf start index)).1 := by
  simp [run_replicate, List.getD_eq_getElem?_getD, hindex]

theorem Draw.mem_run_replicate {α : Type} {draw : Draw α} {count start : Nat} {a : α}
    (h : a ∈ (((List.replicate count ()).mapM fun _ => draw).run start).1) :
    ∃ position, a = (draw.run position).1 := by
  rw [run_replicate] at h
  obtain ⟨index, -, rfl⟩ := List.mem_map.1 h
  exact ⟨_, rfl⟩

end Random

theorem Payload.matrix_square (words : Random.Words) (ranks size start : Nat) :
    let sizes := ((matrix words ranks size).run start).1
    sizes.length = ranks ∧ ∀ row ∈ sizes, row.length = ranks := by
  intro sizes
  have hsizes := congrArg Prod.fst (Random.Draw.run_replicate
    ((List.replicate ranks ()).mapM fun _ => draw words size) ranks start)
  rw [show sizes = _ from hsizes]
  refine ⟨by simp, fun row hrow => ?_⟩
  obtain ⟨index, -, rfl⟩ := List.mem_map.1 hrow
  rw [Random.Draw.run_replicate, List.length_map, List.length_range]

/-- So an all-to-all whose sizes are drawn is refused for a window of zero only. -/
theorem Alltoall.pattern_drawn_eq_error (algorithm : Algorithm) (request : Request)
    (words : Random.Words) (ranks start : Nat) {error : Error} :
    pattern algorithm request ((drawSizes algorithm request words ranks).run start).1 ranks =
        .error error ↔
      algorithm = .windowed ∧ request.window = 0 ∧ error = .zeroWindow := by
  cases algorithm with
  | windowed =>
    rw [pattern, windowed]
    by_cases hwindow : request.window = 0 <;> simp [hwindow, eq_comm]
  | balanced => simp [pattern, balanced]
  | unbalanced =>
    obtain ⟨hrows, hsquare⟩ := Payload.matrix_square words ranks request.size start
    simp [pattern, drawSizes, unbalanced_of_square request hrows hsquare]

/-- Groups draw their sizes one after another, but what they draw does not matter to refusals. -/
theorem Alltoall.pattern_drawn_alike (algorithm : Algorithm) (request : Request)
    (words : Random.Words) (size : Nat) {count index : Nat} (hindex : index < count)
    {error : Error} :
    let sizes := (((List.replicate count ()).mapM
      fun _ => drawSizes algorithm request words size).run 0).1
    pattern algorithm request (sizes.getD index []) size = .error error ↔
      pattern algorithm request (sizes.getD 0 []) size = .error error := by
  intro sizes
  rw [Random.Draw.getD_run_replicate _ hindex,
    Random.Draw.getD_run_replicate _ (Nat.zero_lt_of_lt hindex), pattern_drawn_eq_error,
    pattern_drawn_eq_error]

end Collectives
