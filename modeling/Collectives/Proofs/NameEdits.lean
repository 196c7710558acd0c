import Collectives.Allreduce
import Collectives.Alltoall
import Collectives.Family
import Mathlib

/-!
# Edits of names

The blanks around a name are dropped first, and then the joiners. So a joiner may come and go
anywhere but outside of a blank: a blank that has a joiner on its outer side is not around the name
any more, and what holds a blank is no name. All other edits of case, joiners and blanks, in any
mixture, leave open only what is left of the name in the end.
-/

namespace Collectives
namespace Text

/-- Whether the place between `front` and `back` lies outside of a blank that is around a name. -/
def Beyond (front back : List Char) : Prop :=
  ((∀ c ∈ front, isBlank c = true) ∧ ∃ c ∈ back.head?, isBlank c = true) ∨
    (∀ c ∈ back, isBlank c = true) ∧ ∃ c ∈ front.getLast?, isBlank c = true

/-- A change that a name may undergo: one joiner more, another case, one blank more at an end. -/
inductive Edit : List Char → List Char → Prop
  | joiner {front back : List Char} {c : Char} (hjoiner : isJoiner c = true)
      (hwithin : ¬Beyond front back) : Edit (front ++ back) (front ++ c :: back)
  | case {front back : List Char} {c d : Char} (h : c.toLower = d.toLower) :
      Edit (front ++ c :: back) (front ++ d :: back)
  | leading {c : Char} (h : isBlank c = true) (cs : List Char) : Edit cs (c :: cs)
  | trailing {c : Char} (h : isBlank c = true) (cs : List Char) : Edit cs (cs ++ [c])

variable {front back cs ds : List Char} {c : Char}

theorem isBlank_toLower (c : Char) : isBlank c.toLower = isBlank c := by
  by_cases hupper : c.isUpper = true
  · obtain ⟨n, hn, rfl⟩ : ∃ n < 26, c = Char.ofNat ('A'.toNat + n) := by
      simp only [Char.isUpper, decide_eq_true_eq, ge_iff_le, UInt32.le_iff_toNat_le,
        Char.toNat_val] at hupper
      refine ⟨c.toNat - 'A'.toNat, ?_, ?_⟩
      · have h : 'Z'.toNat < 'A'.toNat + 26 := by decide
        omega
      · rw [Nat.add_sub_cancel' hupper.1, Char.ofNat_toNat]
    exact (by decide : ∀ n < 26, isBlank (Char.ofNat ('A'.toNat + n)).toLower =
      isBlank (Char.ofNat ('A'.toNat + n))) n hn
  · rw [Char.toLower_eq_of_not_isUpper hupper]

theorem isBlank_of_isJoiner (h : isJoiner c = true) : isBlank c = false := by
  simp only [isJoiner, Bool.or_eq_true, decide_eq_true_eq] at h
  obtain rfl | rfl := h <;> decide

theorem toLower_of_isJoiner (h : isJoiner c = true) : c.toLower = c := by
  simp only [isJoiner, Bool.or_eq_true, decide_eq_true_eq] at h
  obtain rfl | rfl := h <;> decide

theorem trim_eq (cs : List Char) : trim cs = (cs.dropWhile isBlank).rdropWhile isBlank := rfl

/-- Case makes no difference to blanks, so that it does not matter when it is dropped. -/
theorem trim_map_toLower (cs : List Char) :
    trim (cs.map Char.toLower) = (trim cs).map Char.toLower := by
  have hblank : isBlank ∘ Char.toLower = isBlank := funext isBlank_toLower
  rw [trim, List.dropWhile_map, hblank, ← List.map_reverse, List.dropWhile_map, hblank,
    ← List.map_reverse]
  rfl

theorem compactChars_eq (cs : List Char) :
    compactChars cs = (trim (cs.map Char.toLower)).filter (!isJoiner ·) := by
  rw [trim_map_toLower]
  rfl

/-- Blanks are dropped from the front only, unless the blanks of the front go on behind it. -/
theorem dropWhile_append_of_edge
    (h : (∀ c ∈ front, isBlank c = true) → ∀ c ∈ back.head?, isBlank c = false) :
    (front ++ back).dropWhile isBlank = front.dropWhile isBlank ++ back := by
  rw [List.dropWhile_append]
  split
  case isTrue hempty =>
    rw [List.isEmpty_iff] at hempty
    rw [hempty, List.nil_append]
    have hhead := h (List.dropWhile_eq_nil_iff.1 hempty)
    cases back with
    | nil => rfl
    | cons c back => exact List.dropWhile_cons_of_neg (by simp [hhead c rfl])
  case isFalse => rfl

theorem rdropWhile_append_of_edge
    (h : (∀ c ∈ back, isBlank c = true) → ∀ c ∈ front.getLast?, isBlank c = false) :
    (front ++ back).rdropWhile isBlank = front ++ back.rdropWhile isBlank := by
  rw [List.rdropWhile, List.reverse_append, dropWhile_append_of_edge, List.reverse_append,
    List.reverse_reverse]
  · rfl
  · simpa [List.head?_reverse] using h

theorem getLast?_dropWhile (h : ∀ c ∈ cs.getLast?, isBlank c = false) :
    ∀ c ∈ (cs.dropWhile isBlank).getLast?, isBlank c = false := by
  intro c hc
  refine h c ?_
  rw [← List.takeWhile_append_dropWhile (p := isBlank) (l := cs), List.getLast?_append, hc]
  rfl

/-- Between the dropped blanks a character that is no blank stays where it is. -/
theorem trim_append_cons (h : isBlank c = false) (front back : List Char) :
    trim (front ++ c :: back) = front.dropWhile isBlank ++ c :: back.rdropWhile isBlank := by
  have hfront : (front ++ c :: back).dropWhile isBlank = front.dropWhile isBlank ++ c :: back :=
    dropWhile_append_of_edge fun _ => by simpa using h
  have hback : (front.dropWhile isBlank ++ [c] ++ back).rdropWhile isBlank =
      front.dropWhile isBlank ++ [c] ++ back.rdropWhile isBlank :=
    rdropWhile_append_of_edge fun _ => by simpa using h
  rw [trim_eq, hfront, List.append_cons, hback, ← List.append_cons]

/-- Without the character the same blanks are dropped, unless the place is beyond one. -/
theorem trim_append (h : ¬Beyond front back) :
    trim (front ++ back) = front.dropWhile isBlank ++ back.rdropWhile isBlank := by
  rw [Beyond, not_or] at h
  rw [trim_eq, dropWhile_append_of_edge, rdropWhile_append_of_edge]
  · intro hall
    refine getLast?_dropWhile fun c hc => ?_
    exact Bool.eq_false_iff.2 fun hblank => h.2 ⟨hall, c, hc, hblank⟩
  · exact fun hall c hc => Bool.eq_false_iff.2 fun hblank => h.1 ⟨hall, c, hc, hblank⟩

theorem trim_cons_of_isBlank (h : isBlank c = true) (cs : List Char) :
    trim (c :: cs) = trim cs := by
  rw [trim, List.dropWhile_cons_of_pos h]
  rfl

theorem trim_concat_of_isBlank (h : isBlank c = true) (cs : List Char) :
    trim (cs ++ [c]) = trim cs := by
  rw [trim_eq, trim_eq, List.dropWhile_append]
  split
  case isTrue hempty =>
    rw [List.isEmpty_iff.1 hempty, List.dropWhile_cons_of_pos h]
    rfl
  case isFalse => rw [List.rdropWhile_concat_pos _ _ _ h]

/-- What is left of a name around a joiner. -/
theorem compactChars_append_cons (h : isJoiner c = true) (front back : List Char) :
    compactChars (front ++ c :: back) =
      ((front.dropWhile isBlank ++ back.rdropWhile isBlank).map Char.toLower).filter
        (!isJoiner ·) := by
  simp [compactChars, loweredChars, trim_append_cons (isBlank_of_isJoiner h),
    toLower_of_isJoiner h, h]

/-- An edit leaves open only what is left of the name. -/
theorem Edit.compactChars_eq (h : Edit cs ds) : compactChars cs = compactChars ds := by
  cases h with
  | joiner hjoiner hwithin =>
    rw [compactChars_append_cons hjoiner, compactChars, loweredChars, trim_append hwithin]
  | case hcase => simp [Text.compactChars_eq, hcase]
  | leading hblank =>
    rw [compactChars, compactChars, loweredChars, loweredChars, trim_cons_of_isBlank hblank]
  | trailing hblank =>
    rw [compactChars, compactChars, loweredChars, loweredChars, trim_concat_of_isBlank hblank]

theorem compact_eq_of_edits {s t : String} (h : Relation.EqvGen Edit s.toList t.toList) :
    compact s = compact t := by
  have hchars : ∀ {cs ds}, Relation.EqvGen Edit cs ds → compactChars cs = compactChars ds := by
    intro cs ds hedits
    induction hedits with
    | rel _ _ hedit => exact hedit.compactChars_eq
    | refl => rfl
    | symm _ _ _ ih => exact ih.symm
    | trans _ _ _ _ _ first second => exact first.trans second
  rw [compact, compact, hchars h]

/-- Nothing, or something with a blank in it. -/
def Nameless (cs : List Char) : Prop := cs = [] ∨ ∃ c ∈ cs, isBlank c = true

instance (cs : List Char) : Decidable (Nameless cs) :=
  have := List.decidableBEx (isBlank · = true) cs
  inferInstanceAs (Decidable (cs = [] ∨ ∃ c ∈ cs, isBlank c = true))

theorem nameless_nil : Nameless [] := Or.inl rfl

/-- A blank stays in what is left of a name. -/
theorem nameless_of_mem {core : List Char} (hc : c ∈ core) (hblank : isBlank c = true) :
    Nameless ((core.map Char.toLower).filter (!isJoiner ·)) := by
  have hlower : isBlank c.toLower = true := (isBlank_toLower c).trans hblank
  have hjoiner : isJoiner c.toLower = false := by
    rw [Bool.eq_false_iff]
    intro hjoiner
    rw [isBlank_of_isJoiner hjoiner] at hlower
    cases hlower
  exact Or.inr ⟨c.toLower, by simp [hjoiner, List.mem_map_of_mem hc], hlower⟩

/-- A joiner keeps the blank that it is beyond from being dropped. -/
theorem Beyond.nameless (h : Beyond front back) (hjoiner : isJoiner c = true) :
    Nameless (compactChars (front ++ c :: back)) := by
  rw [compactChars_append_cons hjoiner]
  rcases h with ⟨hall, b, hb, hblank⟩ | ⟨hall, b, hb, hblank⟩
  · rw [List.dropWhile_eq_nil_iff.2 hall, List.nil_append]
    cases hrest : back.rdropWhile isBlank with
    | nil => exact nameless_nil
    | cons first rest =>
      obtain ⟨dropped, hdropped⟩ := List.rdropWhile_prefix isBlank (l := back)
      rw [← hdropped, hrest] at hb
      obtain rfl : first = b := Option.some.inj hb
      exact nameless_of_mem List.mem_cons_self hblank
  · rw [List.rdropWhile_eq_nil_iff.2 hall, List.append_nil]
    rcases List.eq_nil_or_concat (front.dropWhile isBlank) with hrest | ⟨rest, last, hrest⟩
    · rw [hrest]
      exact nameless_nil
    · obtain ⟨dropped, hdropped⟩ := List.dropWhile_suffix isBlank (l := front)
      rw [← hdropped, hrest, List.concat_eq_append, ← List.append_assoc,
        List.getLast?_concat] at hb
      obtain rfl : last = b := Option.some.inj hb
      rw [hrest]
      exact nameless_of_mem (by simp) hblank

/-- Of what is left of a name only blanks can be dropped further. -/
theorem compactChars_compactChars (cs : List Char) :
    compactChars (compactChars cs) = trim (compactChars cs) := by
  have hlower : (compactChars cs).map Char.toLower = compactChars cs := by
    simp only [compactChars, loweredChars]
    refine (List.map_congr_left fun c hc => ?_).trans (List.map_id _)
    obtain ⟨d, -, rfl⟩ := List.mem_map.1 (List.mem_of_mem_filter hc)
    exact Char.toLower_toLower_eq_toLower d
  have hsub : ∀ c ∈ trim (compactChars cs), c ∈ compactChars cs := fun c hc =>
    (List.dropWhile_suffix isBlank).subset ((List.rdropWhile_prefix isBlank _).subset hc)
  rw [compactChars_eq, hlower, List.filter_eq_self]
  exact fun c hc => (List.mem_filter.1 (hsub c hc)).2

theorem compact_compact (name : String) :
    compact (compact name) = .ofList (trim (compact name).toList) := by
  rw [compact, compact, String.toList_ofList, compactChars_compactChars]

end Text

section Parsers

variable {name other : String}

/-- What is parsed is what is left of a name. -/
theorem Family.parse_congr (h : Text.compact name = Text.compact other) :
    (Family.parse name).toOption = (Family.parse other).toOption := by
  rw [Family.parse, Family.parse, h]
  split <;> rfl

theorem Allreduce.Algorithm.parse_congr (h : Text.compact name = Text.compact other) :
    (Allreduce.Algorithm.parse name).toOption = (Allreduce.Algorithm.parse other).toOption := by
  rw [Allreduce.Algorithm.parse, Allreduce.Algorithm.parse, h]
  split <;> rfl

theorem Alltoall.Algorithm.parse_congr (h : Text.compact name = Text.compact other) :
    (Alltoall.Algorithm.parse name).toOption = (Alltoall.Algorithm.parse other).toOption := by
  rw [Alltoall.Algorithm.parse, Alltoall.Algorithm.parse, h]
  split <;> rfl

theorem Text.compact_ne_of_nameless (h : Nameless (compact name).toList) {text : String}
    (htext : ¬Nameless text.toList) : compact name ≠ text :=
  fun heq => htext (heq ▸ h)

theorem Family.parse_of_nameless (h : Text.Nameless (Text.compact name).toList) :
    Family.parse name = .error (.unknownCollective name) := by
  unfold Family.parse
  split
  case h_7 => rfl
  all_goals
    rename_i hname
    exact absurd hname (Text.compact_ne_of_nameless h (by decide))

theorem Allreduce.Algorithm.parse_of_nameless (h : Text.Nameless (Text.compact name).toList) :
    Allreduce.Algorithm.parse name = .error (.unknownAllreduce name) := by
  unfold Allreduce.Algorithm.parse
  split
  case h_5 => rfl
  all_goals
    rename_i hname
    exact absurd hname (Text.compact_ne_of_nameless h (by decide))

theorem Alltoall.Algorithm.parse_of_nameless (h : Text.Nameless (Text.compact name).toList) :
    Alltoall.Algorithm.parse name = .error (.unknownAlltoall name) := by
  unfold Alltoall.Algorithm.parse
  split
  case h_4 => rfl
  all_goals
    rename_i hname
    exact absurd hname (Text.compact_ne_of_nameless h (by decide))

end Parsers

namespace Text

/-- Edits in any mixture make no difference to what a name is parsed as. A name with a joiner beyond
a blank, which no edit puts there, is unknown. Reducing a name once more drops blanks and nothing
else. -/
theorem edits_decide (name : String) :
    (∀ other : String, Relation.EqvGen Edit name.toList other.toList →
      compact name = compact other ∧
      (Family.parse name).toOption = (Family.parse other).toOption ∧
      (Allreduce.Algorithm.parse name).toOption = (Allreduce.Algorithm.parse other).toOption ∧
      (Alltoall.Algorithm.parse name).toOption = (Alltoall.Algorithm.parse other).toOption) ∧
    (∀ front back c, name.toList = front ++ c :: back → isJoiner c = true → Beyond front back →
      Family.parse name = .error (.unknownCollective name) ∧
      Allreduce.Algorithm.parse name = .error (.unknownAllreduce name) ∧
      Alltoall.Algorithm.parse name = .error (.unknownAlltoall name)) ∧
    compact (compact name) = .ofList (trim (compact name).toList) := by
  refine ⟨fun other hedits => ?_, fun front back c hname hjoiner hbeyond => ?_,
    compact_compact name⟩
  · have hsame := compact_eq_of_edits hedits
    exact ⟨hsame, Family.parse_congr hsame, Allreduce.Algorithm.parse_congr hsame,
      Alltoall.Algorithm.parse_congr hsame⟩
  · have hnameless : Nameless (compact name).toList := by
      rw [compact, String.toList_ofList, hname]
      exact hbeyond.nameless hjoiner
    exact ⟨Family.parse_of_nameless hnameless, Allreduce.Algorithm.parse_of_nameless hnameless,
      Alltoall.Algorithm.parse_of_nameless hnameless⟩

/-- A blank less in front, a joiner more and another case leave the ring what it is; a joiner before
the blank does not. -/
theorem edits_decide_ring :
    let core := ['r', 'i', 'n', 'g']
    Relation.EqvGen Edit " ring".toList "R_ing".toList ∧
      (Allreduce.Algorithm.parse "R_ing").toOption = some .ring ∧
      ("_ ring".toList = [] ++ '_' :: ' ' :: core ∧ isJoiner '_' = true ∧
        Beyond [] (' ' :: core)) ∧
      Allreduce.Algorithm.parse "_ ring" = .error (.unknownAllreduce "_ ring") := by
  intro core
  have hedits : Relation.EqvGen Edit " ring".toList "R_ing".toList := by
    have hleading : Edit core (' ' :: core) := .leading (by decide) core
    have hjoiner : Edit core ['r', '_', 'i', 'n', 'g'] :=
      @Edit.joiner ['r'] ['i', 'n', 'g'] '_' (by decide) (by simp [Beyond]; decide)
    have hcase : Edit ['r', '_', 'i', 'n', 'g'] ['R', '_', 'i', 'n', 'g'] :=
      @Edit.case [] ['_', 'i', 'n', 'g'] 'r' 'R' (by decide)
    exact .trans _ _ _ (.symm _ _ (.rel _ _ hleading)) (.trans _ _ _ (.rel _ _ hjoiner)
      (.rel _ _ hcase))
  have hbeyond : Beyond [] (' ' :: core) := Or.inl ⟨by simp, ' ', rfl, by decide⟩
  have hsplit : "_ ring".toList = [] ++ '_' :: ' ' :: core := by decide
  have hring : Allreduce.Algorithm.parse " ring" = .ok .ring := by decide
  refine ⟨hedits, ?_, ⟨hsplit, by decide, hbeyond⟩, ?_⟩
  · rw [← ((edits_decide " ring").1 _ hedits).2.2.1, hring]
    rfl
  · exact ((edits_decide "_ ring").2.1 _ _ _ hsplit (by decide) hbeyond).2.1

/-- A joiner before a blank is not ignored, and what is left of the name has a blank that is
dropped the next time. -/
theorem edits_slip :
    Allreduce.Algorithm.parse " ring" = .ok .ring ∧
      Allreduce.Algorithm.parse "_ ring" = .error (.unknownAllreduce "_ ring") ∧
      compact (compact "_ ring") ≠ compact "_ ring" := by
  decide

end Text
end Collectives
