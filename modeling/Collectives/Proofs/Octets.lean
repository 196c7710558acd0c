import Collectives.Proofs.Decimals
import Collectives.Trace.Format

/-!
# The bytes of a trace

All that a trace is made of are numerals, fixed names and marks, and blanks, so each character of it
takes one byte, and to count characters is to count bytes.
-/

namespace Collectives

def octets (text : String) : List UInt8 := text.toUTF8.data.toList

theorem octets_append (first second : String) :
    octets (first ++ second) = octets first ++ octets second := by
  rw [octets, String.toUTF8_eq_toByteArray, String.toByteArray_append,
    ByteArray.toList_data_append]
  rfl

theorem octets_join (pieces : List String) : octets (.join pieces) = pieces.flatMap octets := by
  induction pieces with
  | nil => rfl
  | cons piece pieces ih => rw [String.join_cons, octets_append, ih, List.flatMap_cons]

theorem octets_ofList (cs : List Char) :
    octets (.ofList cs) = cs.flatMap String.utf8EncodeChar := by
  rw [octets, String.toUTF8_eq_toByteArray, String.toByteArray_ofList, List.utf8Encode,
    List.data_toByteArray]

/-- Whether every character of a text takes one byte. -/
def SingleBytes (text : String) : Prop := ∀ c ∈ text.toList, c.utf8Size = 1

namespace SingleBytes

instance (text : String) : Decidable (SingleBytes text) :=
  List.decidableBAll (fun c : Char => c.utf8Size = 1) text.toList

variable {text first second : String}

theorem append : SingleBytes (first ++ second) ↔ SingleBytes first ∧ SingleBytes second := by
  simp only [SingleBytes, String.toList_append, List.forall_mem_append]

theorem join {pieces : List String} :
    SingleBytes (.join pieces) ↔ ∀ piece ∈ pieces, SingleBytes piece := by
  simp only [SingleBytes, String.toList_join, List.forall_mem_flatMap]

theorem numeral (n : Nat) : SingleBytes n.repr := by
  intro c hc
  have hdigit := Decimals.isDigit_of_mem hc
  rw [Char.isDigit_iff_toNat] at hdigit
  rw [Char.utf8Size_eq_one_iff, UInt32.le_iff_toNat_le]
  exact hdigit.2.trans (by decide)

theorem octets_eq_map (h : SingleBytes text) :
    octets text = text.toList.map (·.val.toUInt8) := by
  have hflat : ∀ cs : List Char, (∀ c ∈ cs, c.utf8Size = 1) →
      cs.flatMap String.utf8EncodeChar = cs.map (·.val.toUInt8) := by
    intro cs hcs
    rw [List.flatMap_congr fun c hc => String.utf8EncodeChar_eq_singleton (hcs c hc),
      ← List.map_eq_flatMap]
  rw [← String.ofList_toList (s := text), octets_ofList, hflat _ h, String.toList_ofList]

theorem length_octets (h : SingleBytes text) : (octets text).length = text.length := by
  rw [h.octets_eq_map, List.length_map, String.length_toList]

/-- The first characters are the first bytes. -/
theorem octets_take (h : SingleBytes text) (count : Nat) :
    octets (.ofList (text.toList.take count)) = (octets text).take count := by
  have hfirst : SingleBytes (.ofList (text.toList.take count)) := by
    rw [SingleBytes, String.toList_ofList]
    exact fun c hc => h c (List.mem_of_mem_take hc)
  rw [hfirst.octets_eq_map, h.octets_eq_map, String.toList_ofList, List.map_take]

end SingleBytes

namespace Json.Value

/-- A value whose texts and keys take one byte for each character, quoted as they are. -/
inductive Plain : Value → Prop
  | null : Plain .null
  | number (n : Nat) : Plain (.number n)
  | text {s : String} (h : SingleBytes (quote s)) : Plain (.text s)
  | array {items : List Value} (h : ∀ item ∈ items, Plain item) : Plain (.array items)
  | object {members : List (String × Value)} (hkeys : ∀ m ∈ members, SingleBytes (quote m.1))
      (h : ∀ m ∈ members, Plain m.2) : Plain (.object members)

theorem singleBytes_lineBreak (layout : Layout) (depth : Nat) :
    SingleBytes (layout.lineBreak depth) := by
  cases layout with
  | compact => exact (by decide : SingleBytes "")
  | pretty =>
    intro c hc
    simp only [Layout.lineBreak, String.toList_ofList, List.mem_cons, List.mem_replicate] at hc
    obtain rfl | ⟨-, rfl⟩ := hc <;> rfl

theorem singleBytes_colon (layout : Layout) : SingleBytes layout.colon := by
  cases layout <;> decide

theorem singleBytes_itemPieces {layout : Layout} {depth : Nat} {items : List Value}
    (h : ∀ item ∈ items, ∀ piece ∈ item.pieces layout (depth + 1), SingleBytes piece) :
    ∀ piece ∈ itemPieces layout depth items, SingleBytes piece := by
  induction items with
  | nil => simp [itemPieces, singleBytes_lineBreak, (by decide : SingleBytes "]")]
  | cons item items ih =>
    obtain ⟨hitem, hitems⟩ := List.forall_mem_cons.1 h
    simp only [itemPieces, List.cons_append, List.forall_mem_cons, List.forall_mem_append]
    exact ⟨by decide, singleBytes_lineBreak layout _, hitem, ih hitems⟩

theorem singleBytes_memberPieces {layout : Layout} {depth : Nat} {members : List (String × Value)}
    (hkeys : ∀ m ∈ members, SingleBytes (quote m.1))
    (h : ∀ m ∈ members, ∀ piece ∈ m.2.pieces layout (depth + 1), SingleBytes piece) :
    ∀ piece ∈ memberPieces layout depth members, SingleBytes piece := by
  induction members with
  | nil => simp [memberPieces, singleBytes_lineBreak, (by decide : SingleBytes "\x7d")]
  | cons member members ih =>
    obtain ⟨hkey, hkeys⟩ := List.forall_mem_cons.1 hkeys
    obtain ⟨hmember, hmembers⟩ := List.forall_mem_cons.1 h
    simp only [memberPieces, List.cons_append, List.forall_mem_cons, List.forall_mem_append]
    exact ⟨by decide, singleBytes_lineBreak layout _, hkey, singleBytes_colon layout, hmember,
      ih hkeys hmembers⟩

theorem Plain.singleBytes {value : Value} (h : value.Plain) (layout : Layout) (depth : Nat) :
    ∀ piece ∈ value.pieces layout depth, SingleBytes piece := by
  induction h generalizing depth with
  | null => simp [pieces, (by decide : SingleBytes "null")]
  | number n => simpa [pieces] using .numeral n
  | text h => simpa [pieces] using h
  | @array items _ ih =>
    cases items with
    | nil => simp [pieces, (by decide : SingleBytes "[]")]
    | cons item items =>
      obtain ⟨hitem, hitems⟩ := List.forall_mem_cons.1 ih
      simp only [pieces, List.cons_append, List.forall_mem_cons, List.forall_mem_append]
      exact ⟨by decide, singleBytes_lineBreak layout _, hitem _,
        singleBytes_itemPieces fun item hmem => hitems item hmem _⟩
  | @object members hkeys _ ih =>
    cases members with
    | nil => simp [pieces, (by decide : SingleBytes "\x7b\x7d")]
    | cons member members =>
      obtain ⟨hkey, hkeys⟩ := List.forall_mem_cons.1 hkeys
      obtain ⟨hmember, hmembers⟩ := List.forall_mem_cons.1 ih
      simp only [pieces, List.cons_append, List.forall_mem_cons, List.forall_mem_append]
      exact ⟨by decide, singleBytes_lineBreak layout _, hkey, singleBytes_colon layout, hmember _,
        singleBytes_memberPieces hkeys fun m hmem => hmembers m hmem _⟩

end Json.Value

namespace Trace

open Json (Value quote)

theorem plain_object {members : List (String × Value)}
    (h : ∀ m ∈ members, SingleBytes (quote m.1) ∧ m.2.Plain) : (Value.object members).Plain :=
  .object (fun m hm => (h m hm).1) fun m hm => (h m hm).2

theorem plain_list {α : Type} {f : α → Value} (h : ∀ x, (f x).Plain) (xs : List α) :
    (Value.array (xs.map f)).Plain :=
  .array (List.forall_mem_map.2 fun x _ => h x)

theorem plain_opId (id : OpId) : (opIdValue id).Plain := by
  refine plain_object ?_
  simp only [List.forall_mem_cons]
  exact ⟨⟨by decide, .number _⟩, ⟨by decide, .number _⟩, by simp⟩

theorem plain_actionName (action : Action) : (Value.text (actionName action)).Plain := by
  have hname : actionName action ∈ ["send", "recv", "calc"] := by
    cases action <;> simp [actionName]
  exact .text ((by decide : ∀ name ∈ ["send", "recv", "calc"], SingleBytes (quote name)) _ hname)

theorem plain_actionMembers (action : Action) :
    ∀ m ∈ actionMembers action, SingleBytes (quote m.1) ∧ m.2.Plain := by
  cases action <;> simp only [actionMembers, List.forall_mem_cons]
  case «calc» => exact ⟨⟨by decide, .number _⟩, by simp⟩
  all_goals
    exact ⟨⟨by decide, .number _⟩, ⟨by decide, .number _⟩, ⟨by decide, .number _⟩, by simp⟩

theorem plain_record (record : Record) : record.value.Plain := by
  refine plain_object ?_
  simp only [List.cons_append, List.forall_mem_cons, List.forall_mem_append]
  refine ⟨⟨by decide, .number _⟩, ⟨by decide, plain_actionName _⟩, plain_actionMembers _, ?_⟩
  split
  · simp
  · simp only [List.forall_mem_singleton]
    exact ⟨by decide, plain_list plain_opId _⟩

theorem plain_rankRecord (trace : RankRecord) : trace.value.Plain := by
  refine plain_object ?_
  simp only [List.forall_mem_cons]
  exact ⟨⟨by decide, .number _⟩, ⟨by decide, plain_list plain_record _⟩, by simp⟩

theorem plain_document (doc : Document) : doc.value.Plain := by
  refine plain_object ?_
  simp only [List.forall_mem_cons]
  exact ⟨⟨by decide, .number _⟩, ⟨by decide, .number _⟩, ⟨by decide, plain_list plain_rankRecord _⟩,
    by simp⟩

theorem singleBytes_line (line : GoalLine) : SingleBytes line.text := by
  cases line with
  | blank => exact (by decide : SingleBytes "\n")
  | closeRank => exact (by decide : SingleBytes "\x7d\n")
  | rankCount | openRank | dependency =>
    simp only [GoalLine.text, SingleBytes.append, SingleBytes.numeral, and_true]
    decide
  | operation index action =>
    cases action <;>
    · simp only [GoalLine.text, SingleBytes.append, SingleBytes.numeral, and_true]
      decide

/-- Every character of a trace takes one byte. -/
theorem Format.singleBytes_text (format : Format) (s : Schedule) :
    SingleBytes (format.text s) := by
  rw [Format.text, SingleBytes.join]
  cases format with
  | goal => exact List.forall_mem_map.2 fun line _ => singleBytes_line line
  | json =>
    rw [Format.pieces, List.forall_mem_append]
    exact ⟨(plain_document _).singleBytes .pretty 0, by decide⟩

end Trace
end Collectives
