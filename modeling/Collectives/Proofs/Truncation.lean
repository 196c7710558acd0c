import Collectives.Proofs.Octets
import Collectives.Proofs.Sinks

/-!
# Truncated traces

A trace is written by loops over ranks, operations and dependencies, line by line, each line perhaps
in several parts, and each part is offered again from where the medium stopped taking it. The first
part that the medium does not take to its end ends all loops. Whatever the parts and the portions
are, the medium holds the first bytes of the trace, as many as it takes, and the loops end well just
if these are all bytes of the trace.
-/

namespace Collectives
namespace Trace

inductive WriteProblem where
  | writeZero
  deriving DecidableEq, Repr

/-- Work on what a medium holds, up to the first problem. -/
abbrev Writing := ExceptT WriteProblem (StateM (List UInt8))

def Writing.runOn {α : Type} (work : Writing α) (held : List UInt8) :
    Except WriteProblem α × List UInt8 :=
  StateT.run (ExceptT.run work) held

theorem Writing.runOn_bind {α β : Type} (work : Writing α) (next : α → Writing β)
    (held : List UInt8) :
    (work >>= next).runOn held =
      match work.runOn held with
      | (.ok a, held) => (next a).runOn held
      | (.error problem, held) => (.error problem, held) := by
  simp only [Writing.runOn, ExceptT.run, StateT.run, bind, ExceptT.bind, ExceptT.mk, StateT.bind]
  rcases work held with ⟨result, held⟩
  cases result <;> rfl

/-- A medium that takes `limit` bytes in all, in portions of its own choice: of what it is offered
it takes at least one byte as long as there is room, and never more than there is room for. -/
structure Medium (limit : Nat) where
  portion (held offered : List UInt8) : Nat
  portion_le_offered (held offered : List UInt8) : portion held offered ≤ offered.length
  portion_le_room (held offered : List UInt8) : portion held offered ≤ limit - held.length
  portion_pos {held offered : List UInt8} (hroom : held.length < limit) (hoffered : offered ≠ []) :
    0 < portion held offered

namespace Medium

variable {limit : Nat}

/-- Offers bytes until none are left. To take none of them is a problem. -/
def offer (medium : Medium limit) : (offered held : List UInt8) →
    Except WriteProblem Unit × List UInt8
  | [], held => (.ok (), held)
  | byte :: bytes, held =>
    let taken := medium.portion held (byte :: bytes)
    if taken = 0 then (.error .writeZero, held)
    else medium.offer ((byte :: bytes).drop taken) (held ++ (byte :: bytes).take taken)
termination_by offered => offered.length
decreasing_by
  rw [List.length_drop, List.length_cons]
  omega

/-- A medium that is offered bytes takes the first of them, as many as it has room for. -/
theorem offer_eq (medium : Medium limit) {held : List UInt8} (hheld : held.length ≤ limit)
    (offered : List UInt8) :
    medium.offer offered held =
      (if (held ++ offered).length ≤ limit then .ok () else .error .writeZero,
        (held ++ offered).take limit) := by
  fun_induction offer medium offered held with
  | case1 held =>
    rw [List.append_nil, if_pos hheld, List.take_of_length_le hheld]
  | case2 byte bytes held taken hstuck =>
    have hfull : held.length = limit := by
      by_contra hroom
      have hpos := medium.portion_pos (Nat.lt_of_le_of_ne hheld hroom) (List.cons_ne_nil byte bytes)
      omega
    rw [if_neg (by rw [List.length_append, List.length_cons]; omega),
      List.take_append_of_le_length hfull.ge, List.take_of_length_le hheld]
  | case3 byte bytes held taken hstuck ih =>
    have hroom := medium.portion_le_room held (byte :: bytes)
    have hrest := ih (by rw [List.length_append, List.length_take]; omega)
    rwa [List.append_assoc, List.take_append_drop] at hrest

end Medium

section Loops

variable {m : Type → Type} [Monad m]

/-- The lines of a rank: its operations, and then what each of them requires. A dependency on
another rank is passed over. -/
def rankLoop (emit : String → m Unit) (rank : Nat) (ops : List Op) : m Unit := do
  emit GoalLine.blank.text
  emit (GoalLine.openRank rank).text
  forM ops.zipIdx fun (op, index) => emit (GoalLine.operation index op.action).text
  forM ops.zipIdx fun (op, index) =>
    forM op.requires fun dep => do
      if dep.rank = rank then
        emit (GoalLine.dependency index dep.index).text
  emit GoalLine.closeRank.text

def goalLoop (emit : String → m Unit) (s : Schedule) : m Unit := do
  emit (GoalLine.rankCount s.rankCount).text
  forM s.ranks.zipIdx fun (ops, rank) => rankLoop emit rank ops

/-- A document is written piece by piece, and then the end of its last line. -/
def documentLoop (emit : String → m Unit) (s : Schedule) : m Unit := do
  forM ((Document.ofSchedule s).value.pieces .pretty 0) emit
  emit "\n"

def Format.loop (format : Format) (emit : String → m Unit) (s : Schedule) : m Unit :=
  match format with
  | .goal => goalLoop emit s
  | .json => documentLoop emit s

variable [LawfulMonad m]

theorem forM_filter {α : Type} (p : α → Prop) [DecidablePred p] (f : α → m Unit) (xs : List α) :
    forM (xs.filter (p ·)) f = forM xs fun x => if p x then f x else pure () := by
  induction xs with
  | nil => rfl
  | cons x xs ih => by_cases hx : p x <;> simp [hx, ih]

theorem forM_flatMap {α β : Type} (f : α → List β) (g : β → m Unit) (xs : List α) :
    forM (xs.flatMap f) g = forM xs fun x => forM (f x) g := by
  induction xs with
  | nil => rfl
  | cons x xs ih => simp [ih]

theorem rankLoop_eq (emit : String → m Unit) (rank : Nat) (ops : List Op) :
    rankLoop emit rank ops = forM (GoalLine.block rank ops) (emit ·.text) := by
  simp [rankLoop, GoalLine.block, GoalLine.dependencies, forM_flatMap, forM_filter]

/-- The loops hand over the pieces of the trace in order. -/
theorem Format.loop_eq (format : Format) (emit : String → m Unit) (s : Schedule) :
    format.loop emit s = forM (format.pieces s) emit := by
  cases format with
  | goal =>
    simp [Format.loop, Format.pieces, goalLoop, GoalLine.ofSchedule, forM_flatMap, rankLoop_eq]
  | json => simp [Format.loop, Format.pieces, documentLoop]

end Loops

/-- Work that adds bytes to what is held, as far as there is room, and fails just if they do not
fit. -/
def Writing.Adds (limit : Nat) (work : Writing Unit) (bytes : List UInt8) : Prop :=
  ∀ held, held.length ≤ limit →
    work.runOn held =
      (if (held ++ bytes).length ≤ limit then .ok () else .error .writeZero,
        (held ++ bytes).take limit)

namespace Writing.Adds

variable {limit : Nat}

theorem done : Adds limit (pure ()) [] := by
  intro held hheld
  rw [List.append_nil, if_pos hheld, List.take_of_length_le hheld]
  rfl

/-- What comes second is not begun unless there was room for what came first. -/
theorem next {first second : Writing Unit} {bytes more : List UInt8} (h : Adds limit first bytes)
    (hmore : Adds limit second more) : Adds limit (first >>= fun _ => second) (bytes ++ more) := by
  intro held hheld
  rw [runOn_bind, h held hheld]
  by_cases hfits : (held ++ bytes).length ≤ limit
  · rw [if_pos hfits, List.take_of_length_le hfits, ← List.append_assoc]
    exact hmore _ hfits
  · have hnone : ¬(held ++ (bytes ++ more)).length ≤ limit := by
      simp only [List.length_append] at hfits ⊢
      omega
    rw [if_neg hfits, if_neg hnone, ← List.append_assoc,
      List.take_append_of_le_length (Nat.le_of_not_le hfits)]

theorem each {α : Type} {work : α → Writing Unit} {bytes : α → List UInt8}
    (h : ∀ x, Adds limit (work x) (bytes x)) (xs : List α) :
    Adds limit (forM xs work) (xs.flatMap bytes) := by
  induction xs with
  | nil => exact done
  | cons x xs ih =>
    rw [List.forM_cons, List.flatMap_cons]
    exact (h x).next ih

end Writing.Adds

/-- How a line is handed over in parts. -/
structure Cutting where
  parts : String → List String
  join_parts (line : String) : .join (parts line) = line

def Medium.emit {limit : Nat} (medium : Medium limit) (cutting : Cutting) (line : String) :
    Writing Unit :=
  forM (cutting.parts line) fun part => medium.offer (octets part)

theorem Medium.adds_emit {limit : Nat} (medium : Medium limit) (cutting : Cutting)
    (line : String) : (medium.emit cutting line).Adds limit (octets line) := by
  have hoffer : ∀ part, Writing.Adds limit (medium.offer (octets part)) (octets part) :=
    fun part held hheld => medium.offer_eq hheld (octets part)
  have hparts := Writing.Adds.each hoffer (cutting.parts line)
  rwa [← octets_join, cutting.join_parts] at hparts

/-- A trace that does not fit is cut where the room ends, and never reported as written. -/
theorem truncated_never_reported (format : Format) (s : Schedule) (limit : Nat) :
    let bytes := octets (format.text s)
    ((format.write s { room := limit }).1 = true ↔ bytes.length ≤ limit) ∧
    octets (format.write s { room := limit }).2.written = bytes.take limit ∧
    ∀ (medium : Medium limit) (cutting : Cutting),
      (format.loop (medium.emit cutting) s).runOn [] =
        (if bytes.length ≤ limit then .ok () else .error .writeZero, bytes.take limit) := by
  intro bytes
  have hsingle := format.singleBytes_text s
  refine ⟨?_, ?_, fun medium cutting => ?_⟩
  · rw [format.write_eq_put, Sink.put, hsingle.length_octets, String.length_toList]
    exact decide_eq_true_iff
  · rw [format.write_eq_put, Sink.put, String.empty_append]
    exact hsingle.octets_take limit
  · have hadds := Writing.Adds.each (medium.adds_emit cutting) (format.pieces s)
    rw [← octets_join, ← format.loop_eq] at hadds
    exact hadds [] (Nat.zero_le _)

/-- Takes all that it has room for. -/
def Medium.greedy (limit : Nat) : Medium limit where
  portion held offered := min offered.length (limit - held.length)
  portion_le_offered _ _ := Nat.min_le_left _ _
  portion_le_room _ _ := Nat.min_le_right _ _
  portion_pos hroom hoffered := by
    have hlength := List.length_pos_iff.2 hoffered
    omega

def Cutting.whole : Cutting where
  parts line := [line]
  join_parts line := by simp

/-- The end of the last line is missing, and that is a failure. -/
theorem truncated_never_reported_newline :
    (Format.goal.write (.idle 0) { room := 11 }).1 = false ∧
      (Format.goal.loop ((Medium.greedy 11).emit .whole) (.idle 0)).runOn [] =
        (.error .writeZero, octets "num_ranks 0") := by
  obtain ⟨hreport, -, hloop⟩ := truncated_never_reported .goal (.idle 0) 11
  have hbytes : octets (Format.goal.text (.idle 0)) = octets "num_ranks 0\n" := by decide
  rw [hbytes] at hreport hloop
  refine ⟨?_, ?_⟩
  · rw [← Bool.not_eq_true, hreport]
    decide
  · rw [hloop (.greedy 11) .whole]
    decide

end Trace
end Collectives
