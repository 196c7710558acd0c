import Collectives.Proofs.Acceptance
import Collectives.Proofs.JsonForms
import Collectives.Proofs.JsonGrammar
import Collectives.Spec.Document

/-!
# Presentations of descriptions

A description may be presented in many ways: as an object with its fields in any order, among
members that no field knows and without fields that are at their defaults, or as an array of its
fields. All these texts are read as the description, whatever blanks and escapes they use, and so is
the text that is written for it.
-/

namespace Collectives.Spec

open Json (Entries Key Layout ReadAs Shape Tree Value)

/-- What a field holds. -/
abbrev Field.Content : Field → Type
  | .collective => String
  | .algorithm | .direction => Option String
  | .commSize | .datasize | .windowSize | .groupCount | .computeTime => Nat
  | .tag => Tag
  | .seed => Option Nat

namespace Field

/-- The fields in the order of their declaration. -/
def all : List Field :=
  [.collective, .algorithm, .commSize, .datasize, .tag, .direction, .windowSize, .groupCount,
    .computeTime, .seed]

/-- The name of a field in an object. -/
def name : Field → String
  | .collective => "collective"
  | .algorithm => "algorithm"
  | .commSize => "comm_size"
  | .datasize => "datasize"
  | .tag => "tag"
  | .direction => "direction"
  | .windowSize => "window_size"
  | .groupCount => "num_comm_groups"
  | .computeTime => "compute_time"
  | .seed => "seed"

def key : (field : Field) → Key field.Content
  | .collective => Keys.collective
  | .algorithm => Keys.algorithm
  | .commSize => Keys.commSize
  | .datasize => Keys.datasize
  | .tag => Keys.tag
  | .direction => Keys.direction
  | .windowSize => Keys.windowSize
  | .groupCount => Keys.groupCount
  | .computeTime => Keys.computeTime
  | .seed => Keys.seed

theorem mem_all (field : Field) : field ∈ all := by cases field <;> decide

theorem nodup_all : all.Nodup := by decide

theorem name_inj {field other : Field} (h : field.name = other.name) : field = other := by
  cases field <;> cases other <;> first | rfl | exact absurd h (by decide)

theorem name_key (field : Field) : field.key.name = field.name := by cases field <;> rfl

theorem slots_eq : form.slots = all.map fun field => field.key.slot := rfl

theorem find?_slots (field : Field) :
    form.slots.find? (·.name = field.name) = some field.key.slot := by
  cases field <;> rfl

theorem find?_slots_none {name : String} (h : ∀ field : Field, name ≠ field.name) :
    form.slots.find? (·.name = name) = none := by
  rw [List.find?_eq_none, slots_eq]
  intro slot hslot
  obtain ⟨field, -, rfl⟩ := List.mem_map.1 hslot
  rw [Key.slot, name_key, decide_eq_true_eq]
  exact fun heq => h field heq.symm

end Field

/-- What a description says in a field. -/
def content (spec : Spec) : (field : Field) → field.Content
  | .collective => spec.collective
  | .algorithm => spec.algorithm
  | .commSize => spec.commSize
  | .datasize => spec.datasize
  | .tag => spec.tag
  | .direction => spec.direction
  | .windowSize => spec.windowSize
  | .groupCount => spec.groupCount
  | .computeTime => spec.computeTime
  | .seed => spec.seed

/-- What stands for the content of a field. -/
def valueOf (spec : Spec) : Field → Value
  | .collective => .text spec.collective
  | .algorithm => optionalValue .text spec.algorithm
  | .commSize => .number spec.commSize
  | .datasize => .number spec.datasize
  | .tag => .number spec.tag.toNat
  | .direction => optionalValue .text spec.direction
  | .windowSize => .number spec.windowSize
  | .groupCount => .number spec.groupCount
  | .computeTime => .number spec.computeTime
  | .seed => optionalValue .number spec.seed

/-- Whether the content of a field is the default of the field. Three fields have none. -/
def IsDefault (spec : Spec) : Field → Prop
  | .collective | .commSize | .datasize => False
  | .algorithm => spec.algorithm = none
  | .tag => spec.tag = 0
  | .direction => spec.direction = none
  | .windowSize => spec.windowSize = 1
  | .groupCount => spec.groupCount = 1
  | .computeTime => spec.computeTime = 0
  | .seed => spec.seed = none

/-- Whether the numbers of a description have 64 bits. -/
structure InRange (spec : Spec) : Prop where
  commSize : spec.commSize < UInt64.size
  datasize : spec.datasize < UInt64.size
  windowSize : spec.windowSize < UInt64.size
  groupCount : spec.groupCount < UInt64.size
  computeTime : spec.computeTime < UInt64.size
  seed : ∀ seed ∈ spec.seed, seed < UInt64.size

/-- Whether the texts of a key and a value say what a description says in a field. -/
structure Tells (spec : Spec) (field : Field) (member : List Char × List Char) : Prop where
  key : Json.Quotes field.name member.1
  value : (spec.valueOf field).Spelled member.2

/-- Whether a member has a name that no field has, with any value. -/
def Unknown (member : List Char × List Char) : Prop :=
  ∃ name, Json.Quotes name member.1 ∧ (∀ field : Field, name ≠ field.name) ∧
    Json.WellFormed member.2

/-- The texts of objects that hold these fields of a description, in any order and among members
that are not known. -/
inductive Shows (spec : Spec) (fields : List Field) (cs : List Char) : Prop
  | intro {members own others : List (List Char × List Char)}
      (hown : List.Forall₂ spec.Tells fields own) (hothers : ∀ member ∈ others, Unknown member)
      (hperm : members.Perm (own ++ others)) (hcs : Json.ObjectOf members cs)

/-- The texts that present a description. Fields at their defaults may be left out of an object,
and at the end of an array. -/
inductive Presents (spec : Spec) : List Char → Prop
  | object {fields : List Field} {cs : List Char} (hnodup : fields.Nodup)
      (hleft : ∀ field, field ∉ fields → spec.IsDefault field) (h : spec.Shows fields cs) :
      Presents spec cs
  | array {fields left : List Field} {items : List (List Char)} {cs : List Char}
      (hall : fields ++ left = Field.all) (hleft : ∀ field ∈ left, spec.IsDefault field)
      (hitems : List.Forall₂ (fun field item => (spec.valueOf field).Spelled item) fields items)
      (h : Json.Enclosed '[' ']' items cs) : Presents spec cs

theorem value_eq (spec : Spec) :
    spec.value = .object (Field.all.map fun field => (field.name, spec.valueOf field)) := rfl

end Collectives.Spec

namespace Collectives.Json.Tree.Means

variable {tree : Tree}

theorem shape_text {s : String} (h : tree.Means (.text s)) : Shape.text tree = .ok s := by
  cases h with
  | text hget => exact hget

theorem shape_natural {n bound : Nat} (h : tree.Means (.number n)) (hn : n < bound)
    (expected : String) : Shape.natural bound expected tree = .ok n := by
  cases h
  exact Shape.natural_number hn expected

theorem shape_halfWord {n : UInt32} (h : tree.Means (.number n.toNat)) :
    Shape.halfWord tree = .ok n := by
  cases h
  exact Shape.halfWord_number n

theorem shape_optional {α : Type} {shape : Shape α} {value : α → Value} {a? : Option α}
    (h : tree.Means (Spec.optionalValue value a?)) (hvalue : ∀ a, value a ≠ .null)
    (hshape : ∀ a ∈ a?, tree.Means (value a) → shape tree = .ok a) :
    Shape.optional shape tree = .ok a? := by
  cases a? with
  | none =>
    cases h
    rfl
  | some a =>
    have hread := hshape a rfl h
    have hsome : tree ≠ .null := by
      rintro rfl
      generalize hv : Spec.optionalValue value (some a) = v at h
      cases h
      exact hvalue a hv
    cases tree with
    | null => exact absurd rfl hsome
    | boolean | number | text | array | object | broken => simp [Shape.optional, hread]

end Collectives.Json.Tree.Means

namespace Collectives.Spec

open Json (Entries Key Layout ReadAs Shape Tree Value)

variable {spec : Spec}

theorem fits_optionalValue {α : Type} {value : α → Value} {a? : Option α}
    (h : ∀ a ∈ a?, (value a).Fits) : (optionalValue value a?).Fits := by
  cases a? with
  | none => exact .null
  | some a => exact h a rfl

theorem InRange.fits (h : spec.InRange) (field : Field) : (spec.valueOf field).Fits := by
  cases field with
  | collective => exact .text _
  | algorithm => exact fits_optionalValue fun name _ => .text name
  | direction => exact fits_optionalValue fun name _ => .text name
  | commSize => exact .number h.commSize
  | datasize => exact .number h.datasize
  | tag => exact .number (spec.tag.toNat_lt_size.trans (by decide))
  | windowSize => exact .number h.windowSize
  | groupCount => exact .number h.groupCount
  | computeTime => exact .number h.computeTime
  | seed => exact fits_optionalValue fun seed hseed => .number (h.seed seed hseed)

/-- A tree that stands for the content of a field is read as this content. -/
theorem shape_of_means (h : spec.InRange) {field : Field} {tree : Tree}
    (hmeans : tree.Means (spec.valueOf field)) :
    field.key.shape tree = .ok (spec.content field) := by
  cases field with
  | collective => exact hmeans.shape_text
  | algorithm => exact hmeans.shape_optional (by simp) fun _ _ hname => hname.shape_text
  | direction => exact hmeans.shape_optional (by simp) fun _ _ hname => hname.shape_text
  | commSize => exact hmeans.shape_natural h.commSize _
  | datasize => exact hmeans.shape_natural h.datasize _
  | tag => exact hmeans.shape_halfWord
  | windowSize => exact hmeans.shape_natural h.windowSize _
  | groupCount => exact hmeans.shape_natural h.groupCount _
  | computeTime => exact hmeans.shape_natural h.computeTime _
  | seed =>
    exact hmeans.shape_optional (by simp) fun seed hseed hnumber =>
      hnumber.shape_natural (h.seed seed hseed) _

theorem default_of_isDefault {field : Field} (h : spec.IsDefault field) :
    field.key.default = some (spec.content field) := by
  cases field with
  | collective | commSize | datasize => cases h
  | algorithm | tag | direction | windowSize | groupCount | computeTime | seed =>
    exact congrArg some (Eq.symm h)

theorem shape_of_entries {tree : Tree} {entries : Entries}
    (hentries : form.entries tree = .ok entries)
    (hget : ∀ field : Field, field.key.get entries = .ok (spec.content field)) :
    shape tree = .ok spec := by
  have hcollective : Keys.collective.get entries = .ok spec.collective := hget .collective
  have halgorithm : Keys.algorithm.get entries = .ok spec.algorithm := hget .algorithm
  have hcommSize : Keys.commSize.get entries = .ok spec.commSize := hget .commSize
  have hdatasize : Keys.datasize.get entries = .ok spec.datasize := hget .datasize
  have htag : Keys.tag.get entries = .ok spec.tag := hget .tag
  have hdirection : Keys.direction.get entries = .ok spec.direction := hget .direction
  have hwindowSize : Keys.windowSize.get entries = .ok spec.windowSize := hget .windowSize
  have hgroupCount : Keys.groupCount.get entries = .ok spec.groupCount := hget .groupCount
  have hcomputeTime : Keys.computeTime.get entries = .ok spec.computeTime := hget .computeTime
  have hseed : Keys.seed.get entries = .ok spec.seed := hget .seed
  simp only [shape, hentries, hcollective, halgorithm, hcommSize, hdatasize, htag, hdirection,
    hwindowSize, hgroupCount, hcomputeTime, hseed, bind, Except.bind]
  rfl

/-- Whether an entry holds what a description says in a field. -/
structure Holds (spec : Spec) (field : Field) (entry : String × Tree) : Prop where
  name : entry.1 = field.name
  means : entry.2.Means (spec.valueOf field)

section

variable {fields : List Field} {own others entries : Entries}

/-- Entries are read as a description if they hold some of its fields and the others are at their
defaults. -/
theorem shape_of_holds (h : spec.InRange) {tree : Tree} (hentries : form.entries tree = .ok entries)
    (hown : List.Forall₂ spec.Holds fields own)
    (hothers : ∀ entry ∈ others, ∀ field : Field, entry.1 ≠ field.name)
    (hperm : entries.Perm (own ++ others))
    (hleft : ∀ field, field ∉ fields → spec.IsDefault field) : shape tree = .ok spec := by
  apply shape_of_entries hentries
  intro field
  apply field.key.get_eq_of
  · intro entry hentry hname
    rw [Field.name_key] at hname
    rcases List.mem_append.1 (hperm.mem_iff.1 hentry) with hmem | hmem
    · obtain ⟨other, -, hholds⟩ := Json.exists_of_mem_right hown hmem
      obtain rfl : field = other := Field.name_inj (hname.symm.trans hholds.name)
      exact shape_of_means h hholds.means
    · exact absurd hname (hothers entry hmem field)
  · by_cases hmem : field ∈ fields
    · obtain ⟨entry, hentry, hholds⟩ := Json.exists_of_mem_left hown hmem
      rw [Field.name_key, ← hholds.name]
      exact Or.inl (List.mem_map_of_mem (hperm.mem_iff.2 (List.mem_append_left _ hentry)))
    · exact Or.inr (default_of_isDefault (hleft field hmem))

theorem names_differ (hown : List.Forall₂ spec.Holds fields own) (hnodup : fields.Nodup) :
    own.Pairwise fun entry other => entry.1 ≠ other.1 := by
  induction hown with
  | nil => exact .nil
  | @cons field entry _ _ hholds hrest ih =>
    rw [List.nodup_cons] at hnodup
    refine .cons (fun later hlater heq => ?_) (ih hnodup.2)
    obtain ⟨other, hother, hnext⟩ := Json.exists_of_mem_right hrest hlater
    obtain rfl : field = other := Field.name_inj (hholds.name.symm.trans (heq.trans hnext.name))
    exact hnodup.1 hother

/-- Only names that are not known repeat among the entries of an object. -/
theorem distinct_of_holds (hown : List.Forall₂ spec.Holds fields own) (hnodup : fields.Nodup)
    (hothers : ∀ entry ∈ others, ∀ field : Field, entry.1 ≠ field.name)
    (hperm : entries.Perm (own ++ others)) :
    entries.Pairwise fun entry other =>
      entry.1 = other.1 → form.slots.find? (·.name = entry.1) = none := by
  rw [hperm.pairwise_iff fun hnone heq => heq ▸ hnone heq.symm, List.pairwise_append]
  refine ⟨(names_differ hown hnodup).imp fun hne heq => absurd heq hne, ?_, ?_⟩
  · exact List.pairwise_of_forall_mem_list fun entry hentry _ _ _ =>
      Field.find?_slots_none (hothers entry hentry)
  · intro entry hentry other hother heq
    obtain ⟨field, -, hholds⟩ := Json.exists_of_mem_right hown hentry
    exact absurd (heq.symm.trans hholds.name) (hothers other hother field)

theorem checkEntry_of_holds (h : spec.InRange) {field : Field} {entry : String × Tree}
    (hholds : spec.Holds field entry) :
    Json.checkEntry form.slots Tree.skip [] entry.1 entry.2 = .ok () := by
  rw [hholds.name, ← Field.name_key]
  refine Json.checkEntry_slot field.key ?_ (shape_of_means h hholds.means)
  rw [Field.name_key]
  exact Field.find?_slots field

end

theorem Tells.exists_entry (h : spec.InRange) {field : Field} {member : List Char × List Char}
    (htells : spec.Tells field member) :
    ∃ entry, Json.Reads member entry ∧ spec.Holds field entry := by
  obtain ⟨quoted, hkey, hget⟩ := Json.Quoted.exists_of_quotes htells.key
  obtain ⟨tree, hvalue, hmeans⟩ := htells.value.exists_tree (h.fits field)
  exact ⟨(field.name, tree), ⟨quoted, hkey, hget, hvalue⟩, rfl, hmeans⟩

theorem Unknown.exists_entry {member : List Char × List Char} (h : Unknown member) :
    ∃ entry, Json.Reads member entry ∧ (∀ field : Field, entry.1 ≠ field.name) ∧
      entry.2.skip = .ok () := by
  obtain ⟨name, hquotes, hname, hvalue⟩ := h
  obtain ⟨quoted, hkey, hget⟩ := Json.Quoted.exists_of_quotes hquotes
  obtain ⟨tree, hread, hskip⟩ := hvalue.exists_tree
  exact ⟨(name, tree), ⟨quoted, hkey, hget, hread⟩, hname, hskip⟩

/-- An object is read as the description of which it shows all that is not at its default. -/
theorem Shows.exists_tree (h : spec.InRange) {fields : List Field} {cs : List Char}
    (hshows : spec.Shows fields cs) (hnodup : fields.Nodup)
    (hleft : ∀ field, field ∉ fields → spec.IsDefault field) :
    ∃ tree, ReadAs cs tree ∧ shape tree = .ok spec := by
  cases hshows with
  | @intro members own others hown hothers hperm hcs =>
    obtain ⟨held, hreadOwn, hheld⟩ :=
      Json.exists_forall₂_between hown fun _ _ htells => htells.exists_entry h
    obtain ⟨passed, hpassed⟩ :=
      Json.exists_forall₂ fun member hmember => (hothers member hmember).exists_entry
    have hreadOthers := hpassed.imp fun _ _ hentry => hentry.1
    have hunknown : ∀ entry ∈ passed, (∀ field : Field, entry.1 ≠ field.name) ∧
        entry.2.skip = .ok () := by
      intro entry hentry
      obtain ⟨member, -, hmember⟩ := Json.exists_of_mem_right hpassed hentry
      exact hmember.2
    obtain ⟨entries, hreads, horder⟩ :=
      List.perm_comp_forall₂ hperm (List.rel_append hreadOwn hreadOthers)
    have hnames := fun entry hentry => (hunknown entry hentry).1
    have hcheck : ∀ entry ∈ entries,
        Json.checkEntry form.slots Tree.skip [] entry.1 entry.2 = .ok () := by
      intro entry hentry
      rcases List.mem_append.1 (horder.mem_iff.1 hentry) with hmem | hmem
      · obtain ⟨field, -, hholds⟩ := Json.exists_of_mem_right hheld hmem
        exact checkEntry_of_holds h hholds
      · exact Json.checkEntry_pass (Field.find?_slots_none (hnames entry hmem))
          (hunknown entry hmem).2
    obtain ⟨tree, hread, hentries⟩ :=
      form.exists_entries hcs hreads hcheck (distinct_of_holds hheld hnodup hnames horder)
    exact ⟨tree, hread, shape_of_holds h hentries hheld hnames horder hleft⟩

/-- An array is read as the description whose fields it lists up to those at their defaults. -/
theorem exists_tree_of_array (h : spec.InRange) {fields left : List Field}
    {items : List (List Char)} {cs : List Char} (hall : fields ++ left = Field.all)
    (hleft : ∀ field ∈ left, spec.IsDefault field)
    (hitems : List.Forall₂ (fun field item => (spec.valueOf field).Spelled item) fields items)
    (hcs : Json.Enclosed '[' ']' items cs) : ∃ tree, ReadAs cs tree ∧ shape tree = .ok spec := by
  obtain ⟨entries, hread, hheld⟩ : ∃ entries : Entries,
      List.Forall₂ (fun item entry => ReadAs item entry.2) items entries ∧
        List.Forall₂ spec.Holds fields entries := by
    apply Json.exists_forall₂_between hitems
    intro field item hspelled
    obtain ⟨tree, hread, hmeans⟩ := hspelled.exists_tree (h.fits field)
    exact ⟨(field.name, tree), hread, rfl, hmeans⟩
  have hslots : form.slots = (fields.map fun field => field.key.slot) ++
      left.map fun field => field.key.slot := by
    rw [← List.map_append, hall, Field.slots_eq]
  have hfront : List.Forall₂ (fun slot (entry : String × Tree) =>
      slot.name = entry.1 ∧ slot.check entry.2 = .ok ())
      (fields.map fun field => field.key.slot) entries := by
    rw [List.forall₂_map_left_iff]
    refine hheld.imp fun field entry hholds => ⟨?_, ?_⟩
    · rw [hholds.name, ← Field.name_key]
      rfl
    · simp only [Key.slot, shape_of_means h hholds.means]
      rfl
  have hback : ∀ slot ∈ left.map fun field => field.key.slot, slot.required = false := by
    intro slot hslot
    obtain ⟨field, hfield, rfl⟩ := List.mem_map.1 hslot
    rw [Key.slot, default_of_isDefault (hleft field hfield)]
    rfl
  have hentries : form.entries (.array (.of (entries.map Prod.snd))) = .ok entries := by
    rw [Json.Form.entries, hslots]
    exact Json.entries_of_front hfront hback _ 0
  have hperm : entries.Perm (entries ++ []) := by simp
  refine ⟨_, Json.readAs_array hcs (List.forall₂_map_right_iff.2 hread),
    shape_of_holds h hentries hheld (by simp) hperm ?_⟩
  intro field hnot
  have hmem : field ∈ fields ++ left := hall ▸ field.mem_all
  exact hleft field ((List.mem_append.1 hmem).resolve_left hnot)

theorem Presents.exists_tree (h : spec.InRange) {cs : List Char} (hpresents : spec.Presents cs) :
    ∃ tree, ReadAs cs tree ∧ shape tree = .ok spec := by
  cases hpresents with
  | object hnodup hleft hshows => exact hshows.exists_tree h hnodup hleft
  | array hall hleft hitems hcs => exact exists_tree_of_array h hall hleft hitems hcs

/-- A description is read from each text that presents it, with blanks around it. -/
theorem read_eq_of_presents (h : spec.InRange) {before cs after : List Char}
    (hpresents : spec.Presents cs) (hbefore : Json.Blanks before) (hafter : Json.Blanks after) :
    read (.ofList (before ++ (cs ++ after))) = .ok spec := by
  obtain ⟨tree, hread, hshape⟩ := hpresents.exists_tree h
  rw [read, Shape.read, hread.reading hbefore hafter, hshape]
  rfl

theorem spelled_optionalValue {α : Type} {value : α → Value} (layout : Layout) (depth : Nat)
    (h : ∀ a, (value a).Spelled ((value a).chars layout depth)) (a? : Option α) :
    (optionalValue value a?).Spelled ((optionalValue value a?).chars layout depth) := by
  cases a? with
  | none => exact .chars_null layout depth
  | some a => exact h a

theorem spelled_valueOf (spec : Spec) (field : Field) (layout : Layout) (depth : Nat) :
    (spec.valueOf field).Spelled ((spec.valueOf field).chars layout depth) := by
  cases field with
  | collective => exact .chars_text layout depth _
  | algorithm | direction =>
    exact spelled_optionalValue layout depth (.chars_text layout depth) _
  | commSize | datasize | tag | windowSize | groupCount | computeTime =>
    exact .chars_number layout depth _
  | seed => exact spelled_optionalValue layout depth (.chars_number layout depth) _

/-- An object of fields that are known. -/
theorem Shows.of_own {fields : List Field} {members : List (List Char × List Char)} {cs : List Char}
    (h : List.Forall₂ spec.Tells fields members) (hcs : Json.ObjectOf members cs) :
    spec.Shows fields cs := by
  have hperm : members.Perm (members ++ []) := by rw [List.append_nil]
  exact .intro h (by simp) hperm hcs

/-- What is written for a description presents it. -/
theorem presents_chars (spec : Spec) (layout : Layout) :
    spec.Presents (spec.value.chars layout 0) := by
  refine .object Field.nodup_all (fun field hnot => absurd field.mem_all hnot) ?_
  have hcs := Value.objectOf_members layout 0
    (Field.all.map fun field => (field.name, spec.valueOf field))
  rw [List.map_map, ← value_eq] at hcs
  refine .of_own ?_ hcs
  rw [List.forall₂_map_right_iff, List.forall₂_same]
  intro field _
  constructor
  · dsimp only [Function.comp_apply]
    exact Json.quotes_quote field.name
  · exact spelled_valueOf spec field layout _

theorem Shows.congr {other : Spec} {fields : List Field} {cs : List Char}
    (h : spec.Shows fields cs)
    (hsame : ∀ field ∈ fields, spec.valueOf field = other.valueOf field) :
    other.Shows fields cs := by
  cases h with
  | intro hown hothers hperm hcs =>
    refine .intro ?_ hothers hperm hcs
    refine ((List.forall₂_and_left _ _).2 ⟨hsame, hown⟩).imp ?_
    rintro field member ⟨heq, hkey, hvalue⟩
    exact ⟨hkey, heq ▸ hvalue⟩

/-- Whatever the fields of a description hold, it is read from what is written for it, and from
every other text that presents it: from objects in any order, with members that are not known and
without fields at their defaults, and from arrays. An object with no more than the three fields that
have no default gives the others their defaults. -/
theorem read_presented (spec : Spec) (h : spec.InRange) :
    (∀ layout, read (spec.value.render layout) = .ok spec) ∧
      (∀ before cs after, Json.Blanks before → spec.Presents cs → Json.Blanks after →
        read (.ofList (before ++ (cs ++ after))) = .ok spec) ∧
      ∀ before cs after, Json.Blanks before →
        spec.Shows [.collective, .commSize, .datasize] cs → Json.Blanks after →
          read (.ofList (before ++ (cs ++ after))) =
            .ok { collective := spec.collective, commSize := spec.commSize,
                  datasize := spec.datasize } := by
  refine ⟨fun layout => ?_, fun before cs after hbefore hpresents hafter => ?_,
    fun before cs after hbefore hshows hafter => ?_⟩
  · have hread := read_eq_of_presents h (spec.presents_chars layout) Json.blanks_nil Json.blanks_nil
    rwa [List.nil_append, List.append_nil, ← Value.render_eq] at hread
  · exact read_eq_of_presents h hpresents hbefore hafter
  · apply read_eq_of_presents ?_ ?_ hbefore hafter
    · have hzero : 0 < UInt64.size := by decide
      have hone : 1 < UInt64.size := by decide
      exact ⟨h.commSize, h.datasize, hone, hone, hzero, by simp⟩
    · have hnodup : ([.collective, .commSize, .datasize] : List Field).Nodup := by decide
      refine .object hnodup ?_ ?_
      · intro field hnot
        cases field <;> first | rfl | exact absurd (by decide) hnot
      · apply hshows.congr
        simp [valueOf]

/-- The three fields that have no default, with escapes, blanks and the largest number, and a member
that is not known, whose value has a fraction and a code unit that makes no character. -/
theorem read_presented_spelled :
    let spec : Spec := { collective := "é😀", commSize := 8, datasize := 18446744073709551615 }
    let cs := "\x7b\"x\" : [-1.5e+3, \"\\ud800\"],\n\"datasize\":".toList ++
      "18446744073709551615,\"collective\":\"\\u00E9\\uD83d\\ude00\",\"comm_size\" : 8\x7d".toList
    spec.InRange ∧ spec.Presents cs ∧ read (.ofList ([' '] ++ (cs ++ ['\n']))) = .ok spec := by
  intro spec cs
  have hrange : spec.InRange :=
    ⟨by decide, by decide, by decide, by decide, by decide, by simp [spec]⟩
  have hblank : Json.Blanks [' '] := by simp [Json.Blanks]
  have hline : Json.Blanks ['\n'] := by simp [Json.Blanks]
  have hnone := Json.blanks_nil
  have hone : Json.Digits ['1'] := ⟨by decide, List.forall_mem_singleton.2 rfl⟩
  have hfive : Json.Digits ['5'] := ⟨by decide, List.forall_mem_singleton.2 rfl⟩
  have hexponent : Json.Digits ['3'] := ⟨by decide, List.forall_mem_singleton.2 rfl⟩
  have hnumeral : Json.NumeralText "-1.5e+3".toList :=
    @Json.NumeralText.intro ['-'] ['1'] ['.', '5'] ['e', '+', '3'] (by decide) hone (by decide)
      (.some hfive) (@Json.ExponentText.some 'e' ['+'] ['3'] (Or.inl rfl) (by decide) hexponent)
  have hd : Json.IsHex 'd' 13 := Or.inl rfl
  have hzero : Json.IsHex '0' 0 := Or.inl rfl
  have height : Json.IsHex '8' 8 := Or.inl rfl
  have he : Json.IsHex 'e' 14 := Or.inl rfl
  have hE : Json.IsHex 'E' 14 := Or.inr rfl
  have hD : Json.IsHex 'D' 13 := Or.inr rfl
  have hthree : Json.IsHex '3' 3 := Or.inl rfl
  have hnine : Json.IsHex '9' 9 := Or.inl rfl
  have hlone : Json.UnitText 0xD800 "\\ud800".toList := .intro hd height hzero hzero
  have hletter : Json.Spells 'é' "\\u00E9".toList := .unit (.intro hzero hzero hE hnine)
  have hface : Json.Spells '😀' ("\\uD83d".toList ++ "\\ude00".toList) :=
    @Json.Spells.pair '😀' 0x3d 0x200 _ _ (by decide) (by decide) (by decide)
      (.intro hD height hthree hd) (.intro hd he hzero hzero)
  have hlist : Json.WellFormed "[-1.5e+3, \"\\ud800\"]".toList := by
    refine @Json.WellFormed.array ["-1.5e+3".toList, "\"\\ud800\"".toList] _ ?_
      (.items (.more hnone hnone (@Json.Listed.last _ [' '] _ [] hblank hnone)))
    have hquoted : Json.QuotedText "\"\\ud800\"".toList :=
      ⟨["\\ud800".toList], List.forall_mem_singleton.2 (.unit hlone), rfl⟩
    rw [List.forall_mem_cons, List.forall_mem_singleton]
    exact ⟨.number hnumeral, .text hquoted⟩
  have hunknown : Unknown ("\"x\"".toList, "[-1.5e+3, \"\\ud800\"]".toList) :=
    ⟨"x", Json.quotes_quote "x", fun field => by cases field <;> decide, hlist⟩
  have hdatasize : spec.Tells .datasize ("\"datasize\"".toList, "18446744073709551615".toList) :=
    ⟨Json.quotes_quote "datasize", .number 18446744073709551615⟩
  have hname : Json.Quotes "é😀" "\"\\u00E9\\uD83d\\ude00\"".toList := by
    have hchars : "é😀".toList = ['é', '😀'] := by decide
    rw [Json.Quotes, hchars]
    exact ⟨_, .cons hletter (.cons hface .nil), rfl⟩
  have hcollective : spec.Tells .collective
      ("\"collective\"".toList, "\"\\u00E9\\uD83d\\ude00\"".toList) :=
    ⟨Json.quotes_quote "collective", .text hname⟩
  have hcommSize : spec.Tells .commSize ("\"comm_size\"".toList, "8".toList) :=
    ⟨Json.quotes_quote "comm_size", .number 8⟩
  have hcs : Json.ObjectOf
      [("\"x\"".toList, "[-1.5e+3, \"\\ud800\"]".toList),
        ("\"datasize\"".toList, "18446744073709551615".toList),
        ("\"collective\"".toList, "\"\\u00E9\\uD83d\\ude00\"".toList),
        ("\"comm_size\"".toList, "8".toList)] cs :=
    ⟨_, .cons (.intro hblank hblank) (.cons (.intro hnone hnone) (.cons (.intro hnone hnone)
      (.cons (.intro hblank hblank) .nil))), .items (.more hnone hnone (.more hline hnone
        (.more hnone hnone (.last hnone hnone))))⟩
  have hnodup : ([.datasize, .collective, .commSize] : List Field).Nodup := by decide
  have hown := List.Forall₂.cons hdatasize (.cons hcollective (.cons hcommSize .nil))
  have hleft : ∀ field, field ∉ [.datasize, .collective, .commSize] → spec.IsDefault field := by
    intro field hnot
    cases field <;> first | rfl | exact absurd (by decide) hnot
  have hshows : spec.Shows [.datasize, .collective, .commSize] cs := by
    refine .intro hown (List.forall_mem_singleton.2 hunknown) ?_ hcs
    exact (List.perm_append_singleton _ _).symm
  have hpresents : spec.Presents cs := .object hnodup hleft hshows
  exact ⟨hrange, hpresents, (read_presented spec hrange).2.1 _ _ _ hblank hpresents hline⟩

end Collectives.Spec
