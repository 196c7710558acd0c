import Collectives.Proofs.Decimals
import Collectives.Trace.Format
import Mathlib.Data.List.SplitBy

/-!
# Reading lines of a trace

A line of a trace is made of words without digits and numerals, which follow each other in turn. So
the line falls apart into these where digits begin and end, and the words tell what it is.
-/

namespace Collectives.Trace.GoalLine

/-- The words and numerals of a line. -/
def parts : GoalLine → List String
  | rankCount count => ["num_ranks ", count.repr]
  | blank => []
  | openRank rank => ["rank ", rank.repr, " \x7b"]
  | operation index (.send peer size tag) =>
    ["l", index.repr, ": send ", size.repr, "b to ", peer.repr, " tag ", tag.toNat.repr]
  | operation index (.recv peer size tag) =>
    ["l", index.repr, ": recv ", size.repr, "b from ", peer.repr, " tag ", tag.toNat.repr]
  | operation index (.calc cost) => ["l", index.repr, ": calc ", cost.repr]
  | dependency index dep => ["l", index.repr, " requires l", dep.repr]
  | closeRank => ["\x7d"]

/-- The characters of a line without its end. -/
def content (line : GoalLine) : List Char := line.parts.flatMap String.toList

theorem toList_text (line : GoalLine) : line.text.toList = line.content ++ ['\n'] := by
  rcases line with _ | _ | _ | ⟨_, _ | _ | _⟩ | _ | _ <;> simp [text, content, parts]

/-- The number that a numeral stands for. -/
def number? (numeral : String) : Option Nat :=
  if numeral.toList.all Char.isDigit then some (Nat.ofDigitChars 10 numeral.toList 0) else none

def tag? (numeral : String) : Option Tag := do
  let n ← number? numeral
  if n < UInt32.size then some (.ofNat n) else none

def ofParts : List String → Option GoalLine
  | ["num_ranks ", count] => return .rankCount (← number? count)
  | [] => some .blank
  | ["rank ", rank, " \x7b"] => return .openRank (← number? rank)
  | ["l", index, ": send ", size, "b to ", peer, " tag ", tag] => do
    return .operation (← number? index) (.send (← number? peer) (← number? size) (← tag? tag))
  | ["l", index, ": recv ", size, "b from ", peer, " tag ", tag] => do
    return .operation (← number? index) (.recv (← number? peer) (← number? size) (← tag? tag))
  | ["l", index, ": calc ", cost] => return .operation (← number? index) (.calc (← number? cost))
  | ["l", index, " requires l", dep] => return .dependency (← number? index) (← number? dep)
  | ["\x7d"] => some .closeRank
  | _ => none

/-- Cuts a text where digits begin and end. -/
def cut (cs : List Char) : List String :=
  (cs.splitBy fun a b => a.isDigit == b.isDigit).map String.ofList

/-- Reads a line, without its end. -/
def read (cs : List Char) : Option GoalLine := ofParts (cut cs)

theorem number?_repr (n : Nat) : number? n.repr = some n := by
  have hdigits : n.repr.toList.all Char.isDigit = true :=
    List.all_eq_true.2 fun _ => Decimals.isDigit_of_mem
  rw [number?, if_pos hdigits, Decimals.ofDigitChars_repr]

theorem tag?_repr (tag : Tag) : tag? tag.toNat.repr = some tag := by
  simp [tag?, number?_repr, UInt32.toNat_lt_size]

theorem ofParts_parts (line : GoalLine) : ofParts line.parts = some line := by
  rcases line with _ | _ | _ | ⟨_, _ | _ | _⟩ | _ | _ <;>
    simp [parts, ofParts, tag?_repr, number?_repr]

/-- Whether parts are not empty and in turn without digits and of digits only; the first of them is
of digits if `digits` says so. -/
def Alternating : (digits : Bool) → List (List Char) → Prop
  | _, [] => True
  | digits, part :: parts =>
    part ≠ [] ∧ (∀ c ∈ part, c.isDigit = digits) ∧ Alternating (!digits) parts

theorem alternating_numeral (n : Nat) (parts : List (List Char)) :
    Alternating true (n.repr.toList :: parts) ↔ Alternating false parts :=
  ⟨fun h => h.2.2, fun h => ⟨Decimals.toList_ne_nil n, fun _ => Decimals.isDigit_of_mem, h⟩⟩

theorem alternating_word (word : List Char) (parts : List (List Char)) :
    Alternating false (word :: parts) ↔
      word ≠ [] ∧ (∀ c ∈ word, c.isDigit = false) ∧ Alternating true parts := Iff.rfl

theorem alternating_parts (line : GoalLine) :
    Alternating false (line.parts.map String.toList) := by
  have hnil : ∀ digits, Alternating digits [] := fun _ => trivial
  rcases line with _ | _ | _ | ⟨_, _ | _ | _⟩ | _ | _ <;>
    simp [-Nat.toList_repr, parts, hnil, alternating_word, alternating_numeral]

theorem Alternating.nil_notMem {digits : Bool} {parts : List (List Char)}
    (h : Alternating digits parts) : [] ∉ parts := by
  induction parts generalizing digits with
  | nil => simp
  | cons part parts ih =>
    rw [List.mem_cons, not_or]
    exact ⟨h.1.symm, ih h.2.2⟩

theorem Alternating.uniform {digits : Bool} {parts : List (List Char)}
    (h : Alternating digits parts) :
    ∀ part ∈ parts, part.IsChain fun a b => (a.isDigit == b.isDigit) = true := by
  induction parts generalizing digits with
  | nil => simp
  | cons part parts ih =>
    rw [List.forall_mem_cons]
    refine ⟨List.Pairwise.isChain (List.pairwise_of_forall_mem_list fun a ha b hb => ?_), ih h.2.2⟩
    rw [h.2.1 a ha, h.2.1 b hb, beq_self_eq_true]

theorem Alternating.changes {digits : Bool} {parts : List (List Char)}
    (h : Alternating digits parts) :
    parts.IsChain fun a b =>
      ∃ (ha : a ≠ []) (hb : b ≠ []), ((a.getLast ha).isDigit == (b.head hb).isDigit) = false := by
  induction parts generalizing digits with
  | nil => simp
  | cons part parts ih =>
    obtain ⟨hpart, hdigits, hrest⟩ := h
    cases parts with
    | nil => simp
    | cons next parts =>
      rw [List.isChain_cons_cons]
      refine ⟨⟨hpart, hrest.1, ?_⟩, ih hrest⟩
      rw [hdigits _ (List.getLast_mem hpart), hrest.2.1 _ (List.head_mem hrest.1)]
      cases digits <;> rfl

/-- Parts that follow each other in turn are what their text is cut into. -/
theorem Alternating.splitBy {digits : Bool} {parts : List (List Char)}
    (h : Alternating digits parts) :
    parts.flatten.splitBy (fun a b => a.isDigit == b.isDigit) = parts :=
  List.splitBy_flatten h.nil_notMem h.uniform h.changes

theorem read_content (line : GoalLine) : read line.content = some line := by
  rw [read, cut, content, List.flatMap_def, (alternating_parts line).splitBy, List.map_map]
  simp [Function.comp_def, ofParts_parts]

theorem newline_notMem (line : GoalLine) : '\n' ∉ line.content := by
  have hrepr : ∀ n : Nat, '\n' ∉ n.repr.toList := Decimals.notMem (by decide)
  rcases line with _ | _ | _ | ⟨_, _ | _ | _⟩ | _ | _ <;>
    simp [-Nat.toList_repr, content, parts, hrepr]

/-- The lines of a text, each without its end. -/
def split (text : String) : List (List Char) := (text.toList.splitOn '\n').dropLast

theorem split_join (lines : List GoalLine) :
    split (.join (lines.map text)) = lines.map content := by
  have hsplit : (lines.flatMap fun line => line.content ++ ['\n']).splitOn '\n' =
      lines.map content ++ [[]] := by
    induction lines with
    | nil => rfl
    | cons line lines ih =>
      rw [List.flatMap_cons, List.append_assoc, List.singleton_append,
        List.splitOn_append_cons_self_of_not_mem line.newline_notMem, ih]
      rfl
  rw [split, String.toList_join, List.flatMap_map]
  simp only [toList_text, hsplit, List.dropLast_concat]

def isDependency : GoalLine → Bool
  | dependency .. => true
  | _ => false

/-- The word `requires` is in the lines of dependencies and in no others. -/
theorem requires_infix_iff (line : GoalLine) :
    "requires".toList <:+: line.content ↔ line.isDependency = true := by
  constructor
  · intro h
    have hmem : 'q' ∈ line.content := h.subset (by decide)
    have hrepr : ∀ n : Nat, 'q' ∉ n.repr.toList := Decimals.notMem (by decide)
    rcases line with _ | _ | _ | ⟨_, _ | _ | _⟩ | _ | _
    case dependency => rfl
    all_goals simp [-Nat.toList_repr, content, parts, hrepr] at hmem
  · intro h
    rcases line with _ | _ | _ | _ | ⟨index, dep⟩ | _
    case dependency =>
      exact ⟨"l".toList ++ index.repr.toList ++ [' '], " l".toList ++ dep.repr.toList,
        by simp [content, parts]⟩
    all_goals cases h

end Collectives.Trace.GoalLine
