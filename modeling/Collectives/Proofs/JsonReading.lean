import Collectives.Json.Shape
import Collectives.Proofs.Decimals
import Mathlib.Data.List.DropRight
import Mathlib.Data.List.Forall2

/-!
# Reading JSON texts

What a text is read as does not depend on what follows it. Arrays and objects are read item by item,
whatever blanks stand between the items.
-/

namespace Collectives.Json

section Lists

variable {α β γ : Type} {R : α → β → Prop} {as : List α} {bs : List β}

theorem exists_forall₂ (h : ∀ a ∈ as, ∃ b, R a b) : ∃ bs, List.Forall₂ R as bs := by
  induction as with
  | nil => exact ⟨[], .nil⟩
  | cons a as ih =>
    rw [List.forall_mem_cons] at h
    obtain ⟨b, hb⟩ := h.1
    obtain ⟨bs, hbs⟩ := ih h.2
    exact ⟨b :: bs, .cons hb hbs⟩

theorem exists_of_mem_left (h : List.Forall₂ R as bs) {a : α} (ha : a ∈ as) : ∃ b ∈ bs, R a b := by
  induction h with
  | nil => cases ha
  | @cons a' b _ _ hab _ ih =>
    rcases List.mem_cons.1 ha with rfl | hlater
    · exact ⟨b, List.mem_cons_self, hab⟩
    · obtain ⟨b, hb, hR⟩ := ih hlater
      exact ⟨b, List.mem_cons_of_mem _ hb, hR⟩

theorem exists_of_mem_right (h : List.Forall₂ R as bs) {b : β} (hb : b ∈ bs) : ∃ a ∈ as, R a b :=
  exists_of_mem_left h.flip hb

theorem exists_forall₂_between {S : β → γ → Prop} {T : α → γ → Prop} (h : List.Forall₂ R as bs)
    (hstep : ∀ a b, R a b → ∃ c, S b c ∧ T a c) :
    ∃ cs, List.Forall₂ S bs cs ∧ List.Forall₂ T as cs := by
  induction h with
  | nil => exact ⟨[], .nil, .nil⟩
  | cons hab _ ih =>
    obtain ⟨c, hS, hT⟩ := hstep _ _ hab
    obtain ⟨cs, hSs, hTs⟩ := ih
    exact ⟨c :: cs, .cons hS hSs, .cons hT hTs⟩

theorem forall₂_of_both {S : α → γ → Prop} {T : β → γ → Prop} {cs : List γ}
    (h : List.Forall₂ R as bs) (hother : List.Forall₂ S as cs)
    (hstep : ∀ a b c, R a b → S a c → T b c) : List.Forall₂ T bs cs := by
  induction h generalizing cs with
  | nil =>
    cases hother
    exact .nil
  | cons hab _ ih =>
    cases hother with
    | cons hac hothers => exact .cons (hstep _ _ _ hab hac) (ih hothers)

end Lists

namespace Numeral

/-- Whether `rest` does not go on with a part of a numeral. -/
def Ends (rest : List Char) : Prop :=
  ∀ c ∈ rest.head?, c.isDigit = false ∧ c ≠ '.' ∧ c ≠ 'e' ∧ c ≠ 'E'

theorem Ends.stops {rest : List Char} (h : Ends rest) : Decimals.Stops rest :=
  fun c hc => (h c hc).1

theorem ends_nil : Ends [] := by
  rintro c ⟨⟩

theorem ends_cons {c : Char} (h : c.isDigit = false ∧ c ≠ '.' ∧ c ≠ 'e' ∧ c ≠ 'E')
    (rest : List Char) : Ends (c :: rest) := by
  intro d hd
  obtain rfl : c = d := by simpa using hd
  exact h

theorem readTail_eq (parts : Parts) {rest : List Char} (h : Ends rest) :
    readTail parts rest = .ok (parts, rest) := by
  cases rest with
  | nil => rfl
  | cons c rest =>
    obtain ⟨-, hpoint, hlower, hupper⟩ := h c rfl
    simp [readTail, hpoint, hlower, hupper, pure, Except.pure, bind, Except.bind]

end Numeral

theorem skipSpace_skipSpace (cs : List Char) : skipSpace (skipSpace cs) = skipSpace cs := by
  rw [skipSpace, skipSpace, List.dropWhile_idempotent]

theorem skipSpace_cons {c : Char} (h : isSpace c = false) (rest : List Char) :
    skipSpace (c :: rest) = c :: rest := by
  simp [skipSpace, h]

/-- Blanks in front of a value make no difference. -/
theorem readTree_skipSpace (fuel : Nat) (cs : List Char) :
    readTree fuel (skipSpace cs) = readTree fuel cs := by
  cases fuel with
  | zero => rfl
  | succ fuel => rw [readTree, readTree, skipSpace_skipSpace]

/-- Blanks, as they may stand between the tokens of a text. -/
def Blanks (cs : List Char) : Prop := ∀ c ∈ cs, c ∈ [' ', '\n', '\t', '\r']

/-- Items with commas between them and blanks around each, up to the closing bracket. -/
inductive Listed (close : Char) : List (List Char) → List Char → Prop
  | last {before item after : List Char} (hbefore : Blanks before) (hafter : Blanks after) :
      Listed close [item] (before ++ (item ++ (after ++ [close])))
  | more {before item after rest : List Char} {items : List (List Char)} (hbefore : Blanks before)
      (hafter : Blanks after) (hrest : Listed close items rest) :
      Listed close (item :: items) (before ++ (item ++ (after ++ ',' :: rest)))

/-- Items between brackets. -/
inductive Enclosed (opening close : Char) : List (List Char) → List Char → Prop
  | empty {blanks : List Char} (h : Blanks blanks) :
      Enclosed opening close [] (opening :: (blanks ++ [close]))
  | items {items : List (List Char)} {cs : List Char} (h : Listed close items cs) :
      Enclosed opening close items (opening :: cs)

/-- A value behind its key. -/
inductive Keyed (key value : List Char) : List Char → Prop
  | intro {before after : List Char} (hbefore : Blanks before) (hafter : Blanks after) :
      Keyed key value (key ++ (before ++ ':' :: (after ++ value)))

/-- The texts of an object whose members have these texts of keys and values. -/
def ObjectOf (members : List (List Char × List Char)) (cs : List Char) : Prop :=
  ∃ texts, List.Forall₂ (fun member text => Keyed member.1 member.2 text) members texts ∧
    Enclosed '\x7b' '\x7d' texts cs

theorem blanks_nil : Blanks [] := by simp [Blanks]

theorem blanks_iff {cs : List Char} : Blanks cs ↔ ∀ c ∈ cs, isSpace c = true := by
  simp [Blanks, isSpace, or_assoc]

theorem Blanks.skipSpace_append {blanks : List Char} (h : Blanks blanks) (rest : List Char) :
    skipSpace (blanks ++ rest) = skipSpace rest :=
  List.dropWhile_append_of_pos (blanks_iff.1 h)

/-- Blanks end a numeral as what follows them does. -/
theorem Blanks.ends_append {blanks : List Char} (h : Blanks blanks) {rest : List Char}
    (hrest : Numeral.Ends rest) : Numeral.Ends (blanks ++ rest) := by
  cases blanks with
  | nil => exact hrest
  | cons c blanks =>
    apply Numeral.ends_cons
    have hc := h c List.mem_cons_self
    simp only [List.mem_cons, List.not_mem_nil, or_false] at hc
    rcases hc with rfl | rfl | rfl | rfl <;> decide

/-- Whether the text `cs` is read as `tree`, whatever follows it. A step that reads nothing is
followed by one that does, so two steps for a character are enough. -/
structure ReadAs (cs : List Char) (tree : Tree) : Prop where
  begins : ∃ c rest, cs = c :: rest ∧ isSpace c = false ∧ c ≠ ']'
  read : ∀ fuel rest, Numeral.Ends rest → 2 * cs.length ≤ fuel →
    readTree fuel (cs ++ rest) = (tree, rest)

/-- Whether the text `cs` with its quotes is read as `quoted`. -/
def Quoted.ReadAs (cs : List Char) (quoted : Quoted) : Prop :=
  ∃ body, cs = '"' :: body ∧ ∀ rest, Quoted.read (body ++ rest) = (quoted, rest)

def Items.of : List Tree → Items
  | [] => .stop .closed
  | tree :: trees => .more tree (Items.of trees)

def Members.of : List (Quoted × Tree) → Members
  | [] => .stop none
  | (key, tree) :: entries => .more key tree (Members.of entries)

/-- A text is read as a tree if the step at its first character reads it so. -/
theorem ReadAs.of_step {c : Char} {cs : List Char} {tree : Tree} (hspace : isSpace c = false)
    (hbracket : c ≠ ']')
    (h : ∀ fuel rest, Numeral.Ends rest → 2 * cs.length ≤ fuel →
      readTree (fuel + 1) (c :: (cs ++ rest)) = (tree, rest)) : ReadAs (c :: cs) tree where
  begins := ⟨c, cs, rfl, hspace, hbracket⟩
  read := by
    intro fuel rest hends hfuel
    rw [List.length_cons] at hfuel
    obtain ⟨fuel, rfl⟩ : ∃ less, fuel = less + 1 := ⟨fuel - 1, by omega⟩
    exact h fuel rest hends (by omega)

theorem readWord_append (word : Tree) (letters rest : List Char) :
    readWord word letters (letters ++ rest) = (word, rest) := by
  induction letters with
  | nil => rfl
  | cons letter letters ih => rw [List.cons_append, readWord, if_pos rfl, ih]

theorem readAs_null : ReadAs ['n', 'u', 'l', 'l'] .null := by
  refine .of_step (by decide) (by decide) fun fuel rest _ _ => ?_
  rw [readTree, skipSpace_cons (by decide)]
  exact readWord_append _ _ rest

theorem readAs_true : ReadAs ['t', 'r', 'u', 'e'] (.boolean true) := by
  refine .of_step (by decide) (by decide) fun fuel rest _ _ => ?_
  rw [readTree, skipSpace_cons (by decide)]
  exact readWord_append _ _ rest

theorem readAs_false : ReadAs ['f', 'a', 'l', 's', 'e'] (.boolean false) := by
  refine .of_step (by decide) (by decide) fun fuel rest _ _ => ?_
  rw [readTree, skipSpace_cons (by decide)]
  exact readWord_append _ _ rest

theorem Quoted.ReadAs.text {cs : List Char} {quoted : Quoted} (h : Quoted.ReadAs cs quoted) :
    Json.ReadAs cs (.text quoted) := by
  obtain ⟨body, rfl, hread⟩ := h
  refine .of_step (by decide) (by decide) fun fuel rest _ _ => ?_
  simp [readTree, skipSpace_cons (show isSpace '"' = false by decide), hread]

/-- A text that starts as numerals do is read as the numeral that it is. -/
theorem readAs_number {c : Char} {cs : List Char} {n : Numeral} (hc : c = '-' ∨ c.isDigit = true)
    (h : ∀ rest, Numeral.Ends rest → Numeral.read (c :: cs ++ rest) = (n, rest)) :
    ReadAs (c :: cs) (.number n) := by
  have hne : ∀ d : Char, d ≠ '-' → d.isDigit = false → c ≠ d := by
    rintro d hminus hdigit rfl
    rcases hc with heq | hyes
    · exact hminus heq
    · rw [hyes] at hdigit
      cases hdigit
  have hspace : isSpace c = false := by
    simp only [isSpace, Bool.or_eq_false_iff, decide_eq_false_iff_not]
    exact ⟨⟨⟨hne _ (by decide) (by decide), hne _ (by decide) (by decide)⟩,
      hne _ (by decide) (by decide)⟩, hne _ (by decide) (by decide)⟩
  refine .of_step hspace (hne _ (by decide) (by decide)) fun fuel rest hends _ => ?_
  have hnumeral := h rest hends
  rw [List.cons_append] at hnumeral
  simp [readTree, skipSpace_cons hspace, hne, hc, hnumeral]

/-- A value behind blanks is read up to what follows it. -/
theorem ReadAs.behind_blanks {cs blanks : List Char} {tree : Tree} (h : ReadAs cs tree)
    (hblanks : Blanks blanks) {fuel : Nat} {rest : List Char} (hends : Numeral.Ends rest)
    (hfuel : 2 * cs.length ≤ fuel) : readTree fuel (blanks ++ (cs ++ rest)) = (tree, rest) := by
  rw [← readTree_skipSpace, hblanks.skipSpace_append, readTree_skipSpace]
  exact h.read fuel rest hends hfuel

/-- Behind blanks, a list begins as its first item does. -/
theorem Listed.begins {close : Char} {items : List (List Char)} {cs : List Char}
    (h : Listed close items cs) {P : Char → Prop}
    (hitems : ∀ item ∈ items, ∃ c text, item = c :: text ∧ isSpace c = false ∧ P c)
    (rest : List Char) : ∃ c behind, skipSpace (cs ++ rest) = c :: behind ∧ P c := by
  cases h with
  | last hbefore | more hbefore =>
    obtain ⟨c, text, rfl, hspace, hc⟩ := hitems _ List.mem_cons_self
    rw [List.append_assoc, hbefore.skipSpace_append, List.append_assoc, List.cons_append,
      skipSpace_cons hspace]
    exact ⟨c, _, rfl, hc⟩

theorem readItems_skipSpace (fuel : Nat) (cs : List Char) :
    readItems fuel (skipSpace cs) = readItems fuel cs := by
  cases fuel with
  | zero => rfl
  | succ fuel => rw [readItems, readItems, readTree_skipSpace]

theorem exists_head_of_readAs {items : List (List Char)} {trees : List Tree}
    (h : List.Forall₂ ReadAs items trees) :
    ∀ item ∈ items, ∃ c text, item = c :: text ∧ isSpace c = false ∧ c ≠ ']' := by
  intro item hitem
  obtain ⟨tree, -, hread⟩ := exists_of_mem_left h hitem
  exact hread.begins

/-- Items are read up to the closing bracket when each of them is. -/
theorem readItems_listed {items : List (List Char)} {cs : List Char} (h : Listed ']' items cs)
    {trees : List Tree} (hread : List.Forall₂ ReadAs items trees) {fuel : Nat}
    (hfuel : 2 * cs.length ≤ fuel) (rest : List Char) :
    readItems fuel (cs ++ rest) = (.of trees, rest) := by
  induction h generalizing trees fuel with
  | @last before item after hbefore hafter =>
    cases hread with
    | @cons _ tree _ _ hitem hnone =>
    cases hnone
    simp only [List.length_append, List.length_cons] at hfuel
    obtain ⟨fuel, rfl⟩ : ∃ less, fuel = less + 1 := ⟨fuel - 1, by omega⟩
    have hends : Numeral.Ends (after ++ ']' :: rest) :=
      hafter.ends_append (Numeral.ends_cons (by decide) rest)
    have htree := hitem.behind_blanks hbefore hends (show 2 * item.length ≤ fuel by omega)
    simp [readItems, htree, hafter.skipSpace_append, skipSpace_cons, isSpace, Items.of]
  | @more before item after more items hbefore hafter hlisted ih =>
    cases hread with
    | @cons _ tree _ trees hitem hitems =>
    simp only [List.length_append, List.length_cons] at hfuel
    obtain ⟨fuel, rfl⟩ : ∃ less, fuel = less + 1 := ⟨fuel - 1, by omega⟩
    have hends : Numeral.Ends (after ++ ',' :: (more ++ rest)) :=
      hafter.ends_append (Numeral.ends_cons (by decide) _)
    have htree := hitem.behind_blanks hbefore hends (show 2 * item.length ≤ fuel by omega)
    have hmore := ih hitems (show 2 * more.length ≤ fuel by omega)
    obtain ⟨c, behind, hskip, hbracket⟩ := hlisted.begins (exists_head_of_readAs hitems) rest
    rw [← readItems_skipSpace, hskip] at hmore
    simp [readItems, htree, hafter.skipSpace_append, skipSpace_cons, isSpace, hskip, hbracket,
      hmore, Items.of]

theorem readAs_array {items : List (List Char)} {cs : List Char} (h : Enclosed '[' ']' items cs)
    {trees : List Tree} (hread : List.Forall₂ ReadAs items trees) :
    ReadAs cs (.array (.of trees)) := by
  cases h with
  | @empty blanks hblanks =>
    cases hread
    refine .of_step (by decide) (by decide) fun fuel rest _ _ => ?_
    simp [readTree, skipSpace_cons, isSpace, hblanks.skipSpace_append, Items.of]
  | @items _ cs hlisted =>
    refine .of_step (by decide) (by decide) fun fuel rest _ hfuel => ?_
    have hitems := readItems_listed hlisted hread hfuel rest
    obtain ⟨c, behind, hskip, hbracket⟩ := hlisted.begins (exists_head_of_readAs hread) rest
    rw [← readItems_skipSpace, hskip] at hitems
    simp [readTree, skipSpace_cons (show isSpace '[' = false by decide), hskip, hbracket, hitems]

theorem readColon_blanks {before : List Char} (h : Blanks before) (rest : List Char) :
    readColon (before ++ ':' :: rest) = .ok rest := by
  simp [readColon, h.skipSpace_append, skipSpace_cons, isSpace]

/-- Whether the text of a member is read as a key, a colon and a value, whatever follows it. -/
def MemberAs (text : List Char) (entry : Quoted × Tree) : Prop :=
  ∃ body, text = '"' :: body ∧ ∀ fuel rest, Numeral.Ends rest → 2 * text.length ≤ fuel →
    ∃ colon value, Quoted.read (body ++ rest) = (entry.1, colon) ∧ readColon colon = .ok value ∧
      readTree fuel value = (entry.2, rest)

theorem Keyed.memberAs {key value text : List Char} (h : Keyed key value text)
    {entry : Quoted × Tree} (hkey : Quoted.ReadAs key entry.1) (hvalue : ReadAs value entry.2) :
    MemberAs text entry := by
  cases h with
  | @intro before after hbefore hafter =>
    obtain ⟨body, rfl, hread⟩ := hkey
    refine ⟨body ++ (before ++ ':' :: (after ++ value)), rfl, fun fuel rest hends hfuel => ?_⟩
    simp only [List.length_append, List.length_cons] at hfuel
    refine ⟨before ++ ':' :: (after ++ (value ++ rest)), after ++ (value ++ rest), ?_,
      readColon_blanks hbefore _, hvalue.behind_blanks hafter hends (by omega)⟩
    simp only [List.append_assoc, List.cons_append, hread]

theorem exists_head_of_memberAs {texts : List (List Char)} {entries : List (Quoted × Tree)}
    (h : List.Forall₂ MemberAs texts entries) :
    ∀ text ∈ texts, ∃ c body, text = c :: body ∧ isSpace c = false ∧ c ≠ '\x7d' := by
  intro text htext
  obtain ⟨entry, -, body, rfl, -⟩ := exists_of_mem_left h htext
  exact ⟨'"', body, rfl, by decide, by decide⟩

/-- Members are read up to the closing bracket when each of them is. -/
theorem readMembers_listed {texts : List (List Char)} {cs : List Char}
    (h : Listed '\x7d' texts cs) {entries : List (Quoted × Tree)}
    (hread : List.Forall₂ MemberAs texts entries) {fuel : Nat} (hfuel : 2 * cs.length ≤ fuel)
    (rest : List Char) : readMembers fuel (skipSpace (cs ++ rest)) = (.of entries, rest) := by
  induction h generalizing entries fuel with
  | @last before text after hbefore hafter =>
    cases hread with
    | @cons _ entry _ _ hmember hnone =>
    cases hnone
    obtain ⟨body, rfl, hmember⟩ := hmember
    simp only [List.length_append, List.length_cons] at hfuel
    obtain ⟨fuel, rfl⟩ : ∃ less, fuel = less + 1 := ⟨fuel - 1, by omega⟩
    have hends : Numeral.Ends (after ++ '\x7d' :: rest) :=
      hafter.ends_append (Numeral.ends_cons (by decide) rest)
    obtain ⟨colon, value, hkey, hcolon, hvalue⟩ :=
      hmember fuel _ hends (by rw [List.length_cons]; omega)
    simp [hbefore.skipSpace_append, readMembers, hkey, hcolon, hvalue, hafter.skipSpace_append,
      skipSpace_cons, isSpace, Members.of]
  | @more before text after more texts hbefore hafter _ ih =>
    cases hread with
    | @cons _ entry _ _ hmember hmembers =>
    obtain ⟨body, rfl, hmember⟩ := hmember
    simp only [List.length_append, List.length_cons] at hfuel
    obtain ⟨fuel, rfl⟩ : ∃ less, fuel = less + 1 := ⟨fuel - 1, by omega⟩
    have hends : Numeral.Ends (after ++ ',' :: (more ++ rest)) :=
      hafter.ends_append (Numeral.ends_cons (by decide) _)
    obtain ⟨colon, value, hkey, hcolon, hvalue⟩ :=
      hmember fuel _ hends (by rw [List.length_cons]; omega)
    have hmore := ih hmembers (show 2 * more.length ≤ fuel by omega)
    simp [hbefore.skipSpace_append, readMembers, hkey, hcolon, hvalue, hafter.skipSpace_append,
      skipSpace_cons, isSpace, hmore, Members.of]

theorem readAs_object {members : List (List Char × List Char)} {cs : List Char}
    (h : ObjectOf members cs) {entries : List (Quoted × Tree)}
    (hread : List.Forall₂ (fun member entry =>
      Quoted.ReadAs member.1 entry.1 ∧ ReadAs member.2 entry.2) members entries) :
    ReadAs cs (.object (.of entries)) := by
  obtain ⟨texts, hkeyed, henclosed⟩ := h
  have htexts : List.Forall₂ MemberAs texts entries :=
    forall₂_of_both hkeyed hread fun _ _ _ hkeyed hmember => hkeyed.memberAs hmember.1 hmember.2
  cases henclosed with
  | @empty blanks hblanks =>
    cases htexts
    refine .of_step (by decide) (by decide) fun fuel rest _ _ => ?_
    simp [readTree, skipSpace_cons, isSpace, hblanks.skipSpace_append, Members.of]
  | @items _ cs hlisted =>
    refine .of_step (by decide) (by decide) fun fuel rest _ hfuel => ?_
    have hmembers := readMembers_listed hlisted htexts hfuel rest
    obtain ⟨c, behind, hskip, hbracket⟩ := hlisted.begins (exists_head_of_memberAs htexts) rest
    rw [hskip] at hmembers
    simp [readTree, skipSpace_cons (show isSpace '\x7b' = false by decide), hskip, hbracket,
      hmembers]

/-- A text that is read as a tree is so in front of nothing but blanks. -/
theorem ReadAs.reading {cs before after : List Char} {tree : Tree} (h : ReadAs cs tree)
    (hbefore : Blanks before) (hafter : Blanks after) :
    Reading.of (.ofList (before ++ (cs ++ after))) = ⟨tree, false⟩ := by
  have hends : Numeral.Ends after := by
    have hblanks := hafter.ends_append Numeral.ends_nil
    rwa [List.append_nil] at hblanks
  have hbehind : skipSpace after = [] := by
    have hskip := hafter.skipSpace_append []
    rwa [List.append_nil] at hskip
  have hfuel : 2 * cs.length ≤ 2 * (before ++ (cs ++ after)).length + 1 := by
    simp only [List.length_append]
    omega
  simp only [Reading.of, String.toList_ofList, h.behind_blanks hbefore hends hfuel, hbehind]
  rfl

end Collectives.Json
