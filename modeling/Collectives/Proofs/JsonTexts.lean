import Collectives.Json.Value
import Collectives.Proofs.JsonReading
import Mathlib.Tactic.FinCases

/-!
# Reading JSON texts back

What is written for a value is read as the tree of that value, in either layout and whatever the
value is, up to what follows it.
-/

namespace Collectives.Json

namespace Numeral

theorem le_ofDigitChars (digits : List Char) (n : Nat) : n ≤ Nat.ofDigitChars 10 digits n := by
  induction digits generalizing n with
  | nil => exact Nat.le_refl n
  | cons c digits ih =>
    rw [Nat.ofDigitChars_cons]
    exact le_trans (by omega) (ih _)

/-- Digits are taken up as long as their number is below `2 ^ 64`. -/
theorem accumulate_eq (digits : List Char) (n : Nat)
    (h : Nat.ofDigitChars 10 digits n < UInt64.size) :
    accumulate n digits = (Nat.ofDigitChars 10 digits n, []) := by
  induction digits generalizing n with
  | nil => rfl
  | cons c digits ih =>
    rw [Nat.ofDigitChars_cons] at h ⊢
    have hlonger : 10 * n + digitValue c < UInt64.size := (le_ofDigitChars digits _).trans_lt h
    rw [accumulate, if_pos hlonger]
    exact ih _ h

theorem readParts_repr (n : Nat) {rest : List Char} (h : Ends rest) :
    readParts (n.repr.toList ++ rest) = .ok ({ minus := false, whole := n.repr.toList }, rest) := by
  have hwhole := Decimals.takeWhile_repr n h.stops
  have hrest := Decimals.dropWhile_repr n h.stops
  obtain ⟨d, ds, hdigits⟩ := List.exists_cons_of_ne_nil (Decimals.toList_ne_nil n)
  have hminus : d ≠ '-' := by
    rintro rfl
    exact Decimals.notMem (by decide) n (hdigits ▸ List.mem_cons_self)
  have hzero : ∀ c cs, d :: ds ≠ '0' :: c :: cs := fun c cs =>
    hdigits ▸ Decimals.ne_zero_cons n c cs
  rw [hdigits] at hwhole hrest ⊢
  rw [List.cons_append] at hwhole hrest ⊢
  simp [readParts, hminus, hwhole, hrest, readTail_eq _ h]

/-- A natural number of 64 bits is read as it is. -/
theorem read_repr {n : Nat} (hn : n < UInt64.size) {rest : List Char} (h : Ends rest) :
    read (n.repr.toList ++ rest) = (.natural n, rest) := by
  have hvalue : accumulate 0 n.repr.toList = (n, []) := by
    have hdigits := accumulate_eq n.repr.toList 0
    rw [Decimals.ofDigitChars_repr] at hdigits
    exact hdigits hn
  rw [read, readParts_repr n h]
  simp [-Nat.toList_repr, Parts.value, hvalue]

end Numeral

/-- The characters that are written as a letter behind a backslash. -/
def lettered : List Char := ['"', '\\', '\x08', '\x0c', '\n', '\r', '\t']

section Escape

variable {c : Char}

theorem escape_control (hletter : c ∉ lettered) (h : c.toNat < 0x20) :
    escape c = ['\\', 'u', '0', '0', hexDigit (c.toNat / 16), hexDigit (c.toNat % 16)] := by
  simp only [lettered, List.mem_cons, List.not_mem_nil, or_false, not_or] at hletter
  simp [escape, *]

theorem escape_printed (hletter : c ∉ lettered) (h : ¬c.toNat < 0x20) : escape c = [c] := by
  simp only [lettered, List.mem_cons, List.not_mem_nil, or_false, not_or] at hletter
  simp [escape, *]

end Escape

namespace Quoted

/-- How a character is read that was written in a text: a control character without a letter of its
own is written by number. -/
def pieceOf (c : Char) : Piece :=
  if c.toNat < 0x20 ∧ c ∉ ['\x08', '\x0c', '\n', '\r', '\t'] then .unit c.toNat else .char c

/-- What is read where a text was written. -/
def of (s : String) : Quoted := ⟨s.toList.map pieceOf, none⟩

theorem hexValue?_hexDigit : ∀ n < 16, hexValue? (hexDigit n) = some n := by decide

theorem read_cons {c : Char} (hquote : c ≠ '"') (hslash : c ≠ '\\') (hprinted : ¬c.toNat < 0x20)
    (rest : List Char) : read (c :: rest) = cons (.char c) (read rest) := by
  rw [read, if_neg hprinted]
  all_goals simp_all

/-- The number of a control character has two digits behind two zeros. -/
theorem unit?_control {n : Nat} (h : n < 0x20) :
    unit? '0' '0' (hexDigit (n / 16)) (hexDigit (n % 16)) = some n := by
  have hzero : hexValue? '0' = some 0 := rfl
  simp only [unit?, hzero, hexValue?_hexDigit _ (show n / 16 < 16 by omega),
    hexValue?_hexDigit _ (show n % 16 < 16 by omega), Option.bind_eq_bind, Option.bind_some,
    Option.pure_def, Option.some.injEq]
  omega

theorem read_escape (c : Char) (rest : List Char) :
    read (escape c ++ rest) = cons (pieceOf c) (read rest) := by
  by_cases hletter : c ∈ lettered
  · unfold lettered at hletter
    fin_cases hletter <;> rfl
  · by_cases hcontrol : c.toNat < 0x20
    · have hpiece : pieceOf c = .unit c.toNat := by
        refine if_pos ⟨hcontrol, fun hmem => hletter ?_⟩
        exact List.mem_cons_of_mem _ (List.mem_cons_of_mem _ hmem)
      simp [escape_control hletter hcontrol, hpiece, read, unit?_control hcontrol]
    · have hpiece : pieceOf c = .char c := if_neg fun h => hcontrol h.1
      rw [escape_printed hletter hcontrol, hpiece]
      simp only [lettered, List.mem_cons, not_or] at hletter
      exact read_cons hletter.1 hletter.2.1 hcontrol rest

/-- The characters between quotes are read up to the closing quote. -/
theorem read_flatMap (cs rest : List Char) :
    read (cs.flatMap escape ++ '"' :: rest) = (⟨cs.map pieceOf, none⟩, rest) := by
  induction cs with
  | nil => rfl
  | cons c cs ih => rw [List.flatMap_cons, List.append_assoc, read_escape, ih]; rfl

theorem characters_unit {n : Nat} (hlow : isLow n = false) (hhigh : isHigh n = false)
    (rest : List Piece) :
    characters none (.unit n :: rest) = return .ofNat n :: (← characters none rest) := by
  rcases rest with _ | ⟨_ | _, _⟩ <;> simp [characters, hlow, hhigh]

theorem characters_char (c : Char) (rest : List Piece) :
    characters none (.char c :: rest) = (characters none rest).map (c :: ·) := by
  rw [characters]
  cases characters none rest <;> rfl

/-- No character is a half of a pair of code units. -/
theorem not_half (c : Char) : isLow c.toNat = false ∧ isHigh c.toNat = false := by
  have hvalid := c.valid
  simp only [UInt32.isValidChar, Nat.isValidChar] at hvalid
  change c.toNat < _ ∨ _ < c.toNat ∧ c.toNat < _ at hvalid
  constructor
  · simp [isLow]; omega
  · simp [isHigh]; omega

theorem characters_toNat (c : Char) (rest : List Piece) :
    characters none (.unit c.toNat :: rest) = (characters none rest).map (c :: ·) := by
  obtain ⟨hlow, hhigh⟩ := not_half c
  rw [characters_unit hlow hhigh, Char.ofNat_toNat]
  cases characters none rest <;> rfl

theorem characters_map (cs : List Char) : characters none (cs.map pieceOf) = .ok cs := by
  induction cs with
  | nil => rfl
  | cons c cs ih =>
    rw [List.map_cons, pieceOf]
    split
    · rw [characters_toNat, ih]
      rfl
    · rw [characters_char, ih]
      rfl

/-- The text that was written is what its pieces say. -/
theorem get_of (s : String) : (of s).get = .ok s := by
  rw [get, decode, of, characters_map]
  simp

end Quoted

theorem blanks_lineBreak (layout : Layout) (depth : Nat) :
    Blanks (layout.lineBreak depth).toList := by
  cases layout with
  | compact => simp [Blanks, Layout.lineBreak]
  | pretty => simp +contextual [Blanks, Layout.lineBreak]

namespace Value

mutual

/-- The tree of what is written for a value. -/
def tree : Value → Tree
  | null => .null
  | number n => .number (.natural n)
  | text s => .text (.of s)
  | array items => .array (itemTrees items)
  | object members => .object (memberTrees members)

def itemTrees : List Value → Items
  | [] => .stop .closed
  | item :: items => .more item.tree (itemTrees items)

def memberTrees : List (String × Value) → Members
  | [] => .stop none
  | (key, value) :: members => .more (.of key) value.tree (memberTrees members)

end

/-- Whether all numbers of a value have 64 bits. -/
inductive Fits : Value → Prop
  | null : Fits .null
  | number {n : Nat} (h : n < UInt64.size) : Fits (.number n)
  | text (s : String) : Fits (.text s)
  | array {items : List Value} (h : ∀ item ∈ items, Fits item) : Fits (.array items)
  | object {members : List (String × Value)} (h : ∀ member ∈ members, Fits member.2) :
    Fits (.object members)

/-- The characters of a value. -/
def chars (layout : Layout) (depth : Nat) (value : Value) : List Char :=
  (value.pieces layout depth).flatMap String.toList

/-- The characters of the items after the first, up to the bracket. -/
def itemChars (layout : Layout) (depth : Nat) (items : List Value) : List Char :=
  (itemPieces layout depth items).flatMap String.toList

def memberChars (layout : Layout) (depth : Nat) (members : List (String × Value)) : List Char :=
  (memberPieces layout depth members).flatMap String.toList

/-- A key and its colon in front of `rest`. -/
def keyed (layout : Layout) (key : String) (rest : List Char) : List Char :=
  '"' :: (key.toList.flatMap escape ++ '"' :: (layout.colon.toList ++ rest))

theorem chars_array (layout : Layout) (depth : Nat) (item : Value) (items : List Value) :
    (array (item :: items)).chars layout depth =
      '[' :: ((layout.lineBreak (depth + 1)).toList ++
        (item.chars layout (depth + 1) ++ itemChars layout depth items)) := by
  simp [chars, itemChars, pieces]

theorem itemChars_nil (layout : Layout) (depth : Nat) :
    itemChars layout depth [] = (layout.lineBreak depth).toList ++ [']'] := by
  simp [itemChars, itemPieces]

theorem itemChars_cons (layout : Layout) (depth : Nat) (item : Value) (items : List Value) :
    itemChars layout depth (item :: items) =
      ',' :: ((layout.lineBreak (depth + 1)).toList ++
        (item.chars layout (depth + 1) ++ itemChars layout depth items)) := by
  simp [chars, itemChars, itemPieces]

theorem chars_object (layout : Layout) (depth : Nat) (key : String) (value : Value)
    (members : List (String × Value)) :
    (object ((key, value) :: members)).chars layout depth =
      '\x7b' :: ((layout.lineBreak (depth + 1)).toList ++
        keyed layout key (value.chars layout (depth + 1) ++ memberChars layout depth members)) := by
  simp [chars, memberChars, keyed, pieces, quote]

theorem memberChars_nil (layout : Layout) (depth : Nat) :
    memberChars layout depth [] = (layout.lineBreak depth).toList ++ ['\x7d'] := by
  simp [memberChars, memberPieces]

theorem memberChars_cons (layout : Layout) (depth : Nat) (key : String) (value : Value)
    (members : List (String × Value)) :
    memberChars layout depth ((key, value) :: members) =
      ',' :: ((layout.lineBreak (depth + 1)).toList ++
        keyed layout key (value.chars layout (depth + 1) ++ memberChars layout depth members)) := by
  simp [chars, memberChars, keyed, memberPieces, quote]

theorem keyed_append (layout : Layout) (key : String) (cs rest : List Char) :
    keyed layout key cs ++ rest = keyed layout key (cs ++ rest) := by
  simp [keyed]

theorem readAs_repr {n : Nat} (h : n < UInt64.size) :
    ReadAs n.repr.toList (.number (.natural n)) := by
  have hread := fun rest (hends : Numeral.Ends rest) => Numeral.read_repr h hends
  obtain ⟨d, ds, hdigits⟩ := List.exists_cons_of_ne_nil (Decimals.toList_ne_nil n)
  have hdigit : d.isDigit = true := Decimals.isDigit_of_mem (hdigits ▸ List.mem_cons_self)
  rw [hdigits] at hread ⊢
  exact readAs_number (Or.inr hdigit) hread

theorem readAs_quote (s : String) : Quoted.ReadAs (quote s).toList (.of s) := by
  refine ⟨s.toList.flatMap escape ++ ['"'], by simp [quote], fun rest => ?_⟩
  rw [List.append_assoc]
  exact Quoted.read_flatMap s.toList rest

theorem listed_items (layout : Layout) (depth : Nat) (item : Value) (items : List Value) :
    Listed ']' ((item :: items).map (·.chars layout (depth + 1)))
      ((layout.lineBreak (depth + 1)).toList ++
        (item.chars layout (depth + 1) ++ itemChars layout depth items)) := by
  induction items generalizing item with
  | nil =>
    rw [itemChars_nil]
    exact .last (blanks_lineBreak layout _) (blanks_lineBreak layout _)
  | cons next items ih =>
    rw [itemChars_cons, List.map_cons]
    exact @Listed.more _ _ _ [] _ _ (blanks_lineBreak layout _) blanks_nil (ih next)

theorem enclosed_items (layout : Layout) (depth : Nat) (items : List Value) :
    Enclosed '[' ']' (items.map (·.chars layout (depth + 1)))
      ((array items).chars layout depth) := by
  cases items with
  | nil =>
    have hchars : (array []).chars layout depth = '[' :: ([] ++ [']']) := by simp [chars, pieces]
    rw [hchars]
    exact .empty blanks_nil
  | cons item items =>
    rw [chars_array]
    exact .items (listed_items layout depth item items)

theorem itemTrees_eq (items : List Value) : itemTrees items = .of (items.map tree) := by
  induction items with
  | nil => rfl
  | cons item items ih => rw [itemTrees, ih, List.map_cons, Items.of]

theorem keyed_key (layout : Layout) (key : String) (cs : List Char) :
    Keyed (quote key).toList cs (keyed layout key cs) := by
  cases layout with
  | compact =>
    have hkeyed : keyed .compact key cs = (quote key).toList ++ ([] ++ ':' :: ([] ++ cs)) := by
      simp [keyed, quote, Layout.colon]
    rw [hkeyed]
    exact .intro blanks_nil (by simp [Blanks])
  | pretty =>
    have hkeyed : keyed .pretty key cs = (quote key).toList ++ ([] ++ ':' :: ([' '] ++ cs)) := by
      simp [keyed, quote, Layout.colon]
    rw [hkeyed]
    exact .intro blanks_nil (by simp [Blanks])

theorem listed_members (layout : Layout) (depth : Nat) (member : String × Value)
    (members : List (String × Value)) :
    Listed '\x7d'
      ((member :: members).map fun m => keyed layout m.1 (m.2.chars layout (depth + 1)))
      ((layout.lineBreak (depth + 1)).toList ++ keyed layout member.1
        (member.2.chars layout (depth + 1) ++ memberChars layout depth members)) := by
  induction members generalizing member with
  | nil =>
    rw [memberChars_nil, ← keyed_append]
    exact .last (blanks_lineBreak layout _) (blanks_lineBreak layout _)
  | cons next members ih =>
    obtain ⟨key, value⟩ := next
    rw [memberChars_cons, ← keyed_append, List.map_cons]
    exact @Listed.more _ _ _ [] _ _ (blanks_lineBreak layout _) blanks_nil (ih (key, value))

theorem objectOf_members (layout : Layout) (depth : Nat) (members : List (String × Value)) :
    ObjectOf (members.map fun m => ((quote m.1).toList, m.2.chars layout (depth + 1)))
      ((object members).chars layout depth) := by
  refine ⟨members.map fun m => keyed layout m.1 (m.2.chars layout (depth + 1)), ?_, ?_⟩
  · rw [List.forall₂_map_left_iff, List.forall₂_map_right_iff, List.forall₂_same]
    intro member _
    dsimp only
    exact keyed_key layout member.1 _
  · cases members with
    | nil =>
      have hchars : (object []).chars layout depth = '\x7b' :: ([] ++ ['\x7d']) := by
        simp [chars, pieces]
      rw [hchars]
      exact .empty blanks_nil
    | cons member members =>
      obtain ⟨key, value⟩ := member
      rw [chars_object]
      exact .items (listed_members layout depth (key, value) members)

theorem memberTrees_eq (members : List (String × Value)) :
    memberTrees members = .of (members.map fun m => (.of m.1, m.2.tree)) := by
  induction members with
  | nil => rfl
  | cons member members ih => rw [memberTrees, ih, List.map_cons, Members.of]

/-- Every value of 64-bit numbers is read back. -/
theorem Fits.readAs {value : Value} (h : value.Fits) (layout : Layout) (depth : Nat) :
    ReadAs (value.chars layout depth) value.tree := by
  induction h generalizing depth with
  | null => simpa [chars, pieces, tree] using readAs_null
  | number h => simpa [chars, pieces, tree] using readAs_repr h
  | text s => simpa [chars, pieces, tree] using (readAs_quote s).text
  | @array items _ ih =>
    rw [tree, itemTrees_eq]
    refine readAs_array (enclosed_items layout depth items) ?_
    rw [List.forall₂_map_left_iff, List.forall₂_map_right_iff, List.forall₂_same]
    exact fun item hitem => ih item hitem (depth + 1)
  | @object members _ ih =>
    rw [tree, memberTrees_eq]
    refine readAs_object (objectOf_members layout depth members) ?_
    rw [List.forall₂_map_left_iff, List.forall₂_map_right_iff, List.forall₂_same]
    intro member hmember
    dsimp only
    exact ⟨readAs_quote member.1, ih member hmember (depth + 1)⟩

theorem render_eq (value : Value) (layout : Layout) :
    value.render layout = .ofList (value.chars layout 0) := by
  simp [render, chars, ← String.toList_inj]

end Value

/-- The text of a value, with blanks behind it, is read as the tree of the value and no more. -/
theorem Reading.of_render {value : Value} (h : value.Fits) (layout : Layout) {blanks : List Char}
    (hblanks : ∀ c ∈ blanks, isSpace c = true) :
    Reading.of (value.render layout ++ .ofList blanks) = ⟨value.tree, false⟩ := by
  have hread := (h.readAs layout 0).reading blanks_nil (blanks_iff.2 hblanks)
  rwa [List.nil_append, String.ofList_append, ← Value.render_eq] at hread

end Collectives.Json
