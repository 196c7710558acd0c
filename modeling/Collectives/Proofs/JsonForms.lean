import Collectives.Json.Form
import Collectives.Proofs.JsonTexts

/-!
# Members in any order

The members of an object may stand in any order: a form looks at each of them where it stands and
finds it by its name afterwards. Only names that the form does not know may repeat. In an array, the
fields stand in the order of the form instead, and those at the end may be missing.
-/

namespace Collectives.Json

/-- A value that is an object with these members in some order. -/
def Value.Arranges (value : Value) (members : List (String × Value)) : Prop :=
  ∃ order, value = .object order ∧ order.Perm members

def entriesOf (members : List (String × Value)) : Entries :=
  members.map fun member => (member.1, member.2.tree)

/-- Entries that are those of members with different names, in some order. -/
structure Lists (entries : Entries) (members : List (String × Value)) : Prop where
  perm : entries.Perm (entriesOf members)
  distinct : (members.map Prod.fst).Nodup

/-- A field is found by its name, among entries that are all read alike if they have it. -/
theorem Key.get_eq_of {α : Type} (key : Key α) {entries : Entries} {a : α}
    (hshape : ∀ entry ∈ entries, entry.1 = key.name → key.shape entry.2 = .ok a)
    (hthere : key.name ∈ entries.map Prod.fst ∨ key.default = some a) :
    key.get entries = .ok a := by
  rw [Key.get]
  cases hlookup : entries.lookup key.name with
  | some tree =>
    obtain ⟨before, after, hsplit, -⟩ := List.lookup_eq_some_iff.1 hlookup
    exact hshape (key.name, tree) (by simp [hsplit]) rfl
  | none =>
    have hmissing : key.name ∉ entries.map Prod.fst := by
      intro hmem
      obtain ⟨entry, hentry, hname⟩ := List.mem_map.1 hmem
      exact (bne_iff_ne.1 (List.lookup_eq_none_iff.1 hlookup entry hentry)) hname.symm
    rw [hthere.resolve_left hmissing]

namespace Lists

variable {entries : Entries} {members : List (String × Value)}

theorem names (h : Lists entries members) :
    (entries.map Prod.fst).Perm (members.map Prod.fst) := by
  have hnames := h.perm.map Prod.fst
  rwa [entriesOf, List.map_map] at hnames

theorem nodup (h : Lists entries members) : (entries.map Prod.fst).Nodup :=
  h.names.nodup_iff.2 h.distinct

theorem get_eq {α : Type} (h : Lists entries members) (key : Key α) {value : Value} {a : α}
    (hmem : (key.name, value) ∈ members) (hshape : key.shape value.tree = .ok a) :
    key.get entries = .ok a := by
  have hentry : (key.name, value.tree) ∈ entries :=
    h.perm.mem_iff.2 (List.mem_map.2 ⟨_, hmem, rfl⟩)
  refine key.get_eq_of (fun entry hother hname => ?_) (Or.inl (List.mem_map_of_mem hentry))
  rw [List.inj_on_of_nodup_map h.nodup hother hentry hname]
  exact hshape

theorem get_default {α : Type} (h : Lists entries members) {key : Key α} {default : α}
    (hdefault : key.default = some default) (hnew : key.name ∉ members.map Prod.fst) :
    key.get entries = .ok default := by
  refine key.get_eq_of (fun entry hentry hname => ?_) (Or.inr hdefault)
  exact absurd (h.names.mem_iff.1 (List.mem_map_of_mem hentry)) (hname ▸ hnew)

theorem filter (h : Lists entries members) (p : String → Bool) :
    Lists (entries.filter (p ·.1)) (members.filter (p ·.1)) where
  perm := by
    have hkept := h.perm.filter (p ·.1)
    rwa [entriesOf, List.filter_map] at hkept
  distinct := h.distinct.sublist (List.filter_sublist.map Prod.fst)

end Lists

section Checks

variable {slots : List Slot} {pass : Tree → Except Problem Unit}

theorem checkEntry_of_notMem {seen : List String} {name : String} (h : name ∉ seen) (tree : Tree) :
    checkEntry slots pass seen name tree = checkEntry slots pass [] name tree := by
  simp [checkEntry, h]

/-- Entries with different names are all looked at where each of them passes. -/
theorem checkEntries_eq {entries : Entries}
    (hcheck : ∀ entry ∈ entries, checkEntry slots (fun _ => .ok ()) [] entry.1 entry.2 = .ok ())
    (seen : List String) (hnodup : (entries.map Prod.fst).Nodup)
    (hnew : ∀ entry ∈ entries, entry.1 ∉ seen) : checkEntries slots seen entries = .ok () := by
  induction entries generalizing seen with
  | nil => rfl
  | cons entry entries ih =>
    rw [List.map_cons, List.nodup_cons] at hnodup
    have hrest := ih (fun e he => hcheck e (by simp [he])) (entry.1 :: seen) hnodup.2
      fun e he => by
        rw [List.mem_cons, not_or]
        exact ⟨fun heq => hnodup.1 (List.mem_map.2 ⟨e, he, heq⟩), hnew e (by simp [he])⟩
    rw [checkEntries, checkEntry_of_notMem (hnew entry (by simp)), hcheck entry (by simp)]
    exact hrest

theorem Lists.checkEntries {entries : Entries} {members : List (String × Value)}
    (h : Lists entries members)
    (hcheck : ∀ member ∈ members,
      checkEntry slots (fun _ => .ok ()) [] member.1 member.2.tree = .ok ()) :
    checkEntries slots [] entries = .ok () := by
  apply checkEntries_eq _ [] h.nodup (by simp)
  intro entry hentry
  obtain ⟨member, hmember, rfl⟩ := List.mem_map.1 (h.perm.mem_iff.1 hentry)
  exact hcheck member hmember

/-- Members are taken for their entries if each of them passes. Names that no slot has may
repeat. -/
theorem entries_of_passing {entries : Entries} {members : List (Quoted × Tree)}
    (h : List.Forall₂ (fun member entry => member.1.get = .ok entry.1 ∧ member.2 = entry.2)
      members entries)
    (hcheck : ∀ entry ∈ entries, checkEntry slots pass [] entry.1 entry.2 = .ok ())
    (hdistinct : entries.Pairwise fun entry other =>
      entry.1 = other.1 → slots.find? (·.name = entry.1) = none)
    (seen : List String)
    (hnew : ∀ entry ∈ entries, entry.1 ∈ seen → slots.find? (·.name = entry.1) = none) :
    (Members.of members).entries slots pass seen = .ok entries := by
  induction h generalizing seen with
  | nil => rfl
  | @cons member entry members entries hmember _ ih =>
    obtain ⟨hget, htree⟩ := hmember
    obtain ⟨quoted, tree⟩ := member
    obtain ⟨name, tree'⟩ := entry
    dsimp only at hget htree
    subst htree
    rw [List.pairwise_cons] at hdistinct
    rw [List.forall_mem_cons] at hcheck hnew
    have hfirst : checkEntry slots pass seen name tree = .ok () := by
      rw [← hcheck.1]
      by_cases hseen : name ∈ seen
      · simp only [checkEntry, hnew.1 hseen]
      · exact checkEntry_of_notMem hseen tree
    have hrest := ih hcheck.2 hdistinct.2 (name :: seen) (by
      intro later hlater hmem
      rcases List.mem_cons.1 hmem with heq | hmem
      · rw [heq]
        exact hdistinct.1 later hlater heq.symm
      · exact hnew.2 later hlater hmem)
    rw [Members.of, Members.entries, hget]
    simp only [Except.bind, bind, hfirst, hrest]
    rfl

theorem entries_memberTrees {members : List (String × Value)}
    (hcheck : ∀ member ∈ members, checkEntry slots pass [] member.1 member.2.tree = .ok ())
    (hnodup : (members.map Prod.fst).Nodup) :
    (Value.memberTrees members).entries slots pass [] = .ok (entriesOf members) := by
  rw [Value.memberTrees_eq]
  apply entries_of_passing
  · rw [entriesOf, List.forall₂_map_left_iff, List.forall₂_map_right_iff, List.forall₂_same]
    exact fun member _ => ⟨Quoted.get_of member.1, rfl⟩
  · intro entry hentry
    obtain ⟨member, hmember, rfl⟩ := List.mem_map.1 hentry
    exact hcheck member hmember
  · rw [entriesOf, List.pairwise_map]
    exact (List.pairwise_map.1 hnodup).imp fun hne heq => absurd heq hne
  · simp

/-- An object is taken for its members, whatever their order, if each of them passes. -/
theorem Value.Arranges.entries {value : Value} {members : List (String × Value)}
    (h : value.Arranges members) (hdistinct : (members.map Prod.fst).Nodup)
    (hcheck : ∀ member ∈ members, checkEntry slots pass [] member.1 member.2.tree = .ok ()) :
    ∃ trees entries, value.tree = .object trees ∧
      trees.entries slots pass [] = .ok entries ∧ Lists entries members := by
  obtain ⟨order, rfl, hperm⟩ := h
  refine ⟨Value.memberTrees order, entriesOf order, rfl, ?_, hperm.map _, hdistinct⟩
  apply entries_memberTrees
  · exact fun member hmember => hcheck member (hperm.mem_iff.1 hmember)
  · exact (hperm.map Prod.fst).nodup_iff.2 hdistinct

theorem Form.entries_arranged (form : Form) {value : Value} {members : List (String × Value)}
    (h : value.Arranges members) (hdistinct : (members.map Prod.fst).Nodup)
    (hcheck : ∀ member ∈ members,
      checkEntry form.slots Tree.skip [] member.1 member.2.tree = .ok ()) :
    ∃ entries, form.entries value.tree = .ok entries ∧ Lists entries members := by
  obtain ⟨trees, entries, htree, hentries, hlists⟩ := h.entries hdistinct hcheck
  refine ⟨entries, ?_, hlists⟩
  rw [htree]
  exact hentries

/-- Items are taken for the fields at the front, if those behind them may be missing. -/
theorem entries_of_front {entries : Entries} {front : List Slot}
    (h : List.Forall₂ (fun slot (entry : String × Tree) =>
      slot.name = entry.1 ∧ slot.check entry.2 = .ok ()) front entries)
    {back : List Slot} (hback : ∀ slot ∈ back, slot.required = false) (expected : String)
    (index : Nat) :
    (Items.of (entries.map Prod.snd)).entries expected index (front ++ back) = .ok entries := by
  induction h generalizing index with
  | nil =>
    rw [List.nil_append, List.map_nil, Items.of]
    induction back generalizing index with
    | nil => rfl
    | cons slot back ih =>
      rw [List.forall_mem_cons] at hback
      rw [Items.entries, if_neg (by simp [hback.1]), ih hback.2]
  | @cons slot entry front entries hitem _ ih =>
    obtain ⟨name, tree⟩ := entry
    obtain ⟨hname, hcheck⟩ := hitem
    dsimp only at hname hcheck
    rw [List.cons_append, List.map_cons, Items.of, Items.entries, hcheck, hname]
    simp only [Except.bind, bind, ih]
    rfl

/-- A member with a slot of its own passes if its value has the shape of the slot. -/
theorem checkEntry_slot {α : Type} (key : Key α) {tree : Tree} {a : α}
    (hslot : slots.find? (·.name = key.name) = some key.slot) (hshape : key.shape tree = .ok a) :
    checkEntry slots pass [] key.name tree = .ok () := by
  simp only [checkEntry, hslot, Key.slot, hshape, List.not_mem_nil, if_false]
  rfl

theorem checkEntry_pass {name : String} {tree : Tree}
    (hslot : slots.find? (·.name = name) = none) (hpass : pass tree = .ok ()) :
    checkEntry slots pass [] name tree = .ok () := by
  simp [checkEntry, hslot, hpass]

end Checks

/-- The key and the value of a member are read as a name and a tree. -/
def Reads (member : List Char × List Char) (entry : String × Tree) : Prop :=
  ∃ quoted, Quoted.ReadAs member.1 quoted ∧ quoted.get = .ok entry.1 ∧ ReadAs member.2 entry.2

/-- The text of an object is read as entries that its form takes. -/
theorem Form.exists_entries (form : Form) {members : List (List Char × List Char)} {cs : List Char}
    (h : ObjectOf members cs) {entries : Entries} (hreads : List.Forall₂ Reads members entries)
    (hcheck : ∀ entry ∈ entries, checkEntry form.slots Tree.skip [] entry.1 entry.2 = .ok ())
    (hdistinct : entries.Pairwise fun entry other =>
      entry.1 = other.1 → form.slots.find? (·.name = entry.1) = none) :
    ∃ tree, ReadAs cs tree ∧ form.entries tree = .ok entries := by
  obtain ⟨trees, htrees, hread⟩ : ∃ trees : List (Quoted × Tree),
      List.Forall₂ (fun entry tree => tree.1.get = .ok entry.1 ∧ tree.2 = entry.2) entries trees ∧
      List.Forall₂ (fun member tree => Quoted.ReadAs member.1 tree.1 ∧ ReadAs member.2 tree.2)
        members trees := by
    apply exists_forall₂_between hreads
    rintro member entry ⟨quoted, hkey, hget, hvalue⟩
    exact ⟨(quoted, entry.2), ⟨hget, rfl⟩, hkey, hvalue⟩
  exact ⟨_, readAs_object h hread,
    entries_of_passing htrees.flip hcheck hdistinct [] (by simp)⟩

namespace Shape

theorem natural_number {n bound : Nat} (h : n < bound) (expected : String) :
    natural bound expected (Value.number n).tree = .ok n := by
  rw [Value.tree, natural, if_pos h]

theorem halfWord_number (n : UInt32) : halfWord (Value.number n.toNat).tree = .ok n := by
  rw [halfWord, natural_number n.toNat_lt_size]
  simp [UInt32.ofNat_toNat]

/-- A list is read when each of its items is. -/
theorem sequence_array {α : Type} {shape : Shape α} {P : α → Prop} {R : α → Value → Prop}
    (hread : ∀ x value, P x → R x value → shape value.tree = .ok x) {xs : List α}
    {values : List Value} (hxs : ∀ x ∈ xs, P x) (h : List.Forall₂ R xs values) :
    sequence shape (Value.array values).tree = .ok xs := by
  rw [Value.tree, sequence]
  induction h with
  | nil => rfl
  | cons hx _ ih =>
    rw [List.forall_mem_cons] at hxs
    rw [Value.itemTrees, items, hread _ _ hxs.1 hx, ih hxs.2]
    rfl

end Shape

namespace Value

theorem fits_array {α : Type} {P : α → Prop} {R : α → Value → Prop}
    (hfits : ∀ x value, P x → R x value → value.Fits) {xs : List α} {values : List Value}
    (hxs : ∀ x ∈ xs, P x) (h : List.Forall₂ R xs values) : (array values).Fits := by
  apply Fits.array
  induction h with
  | nil => simp
  | cons hx _ ih =>
    rw [List.forall_mem_cons] at hxs ⊢
    exact ⟨hfits _ _ hxs.1 hx, ih hxs.2⟩

theorem Arranges.fits {value : Value} {members : List (String × Value)}
    (h : value.Arranges members) (hmembers : ∀ member ∈ members, member.2.Fits) : value.Fits := by
  obtain ⟨order, rfl, hperm⟩ := h
  exact .object fun member hmember => hmembers member (hperm.mem_iff.1 hmember)

end Value

theorem scan_text (depth : Nat) (s : String) : Tree.scan depth (Value.text s).tree = .ok () := by
  rw [Value.tree, Tree.scan, Quoted.get_of]
  rfl

end Collectives.Json
