import Collectives.Proofs.JsonForms
import Collectives.Trace.Format
import Collectives.Trace.Reader

/-!
# Documents and their text

A document is written as an object whose members may stand in any order, down to the operations and
their dependencies. All these texts are read as the document, so nothing is lost between a schedule
and its JSON form.
-/

namespace Collectives

open Json (Entries Lists Shape Value checkEntry_pass checkEntry_slot)

def OpId.InRange (id : OpId) : Prop := id.rank < UInt64.size ∧ id.index < UInt64.size

def Action.InRange : Action → Prop
  | .send peer size _ | .recv peer size _ => peer < UInt64.size ∧ size < UInt64.size
  | .calc cost => cost < UInt64.size

instance (id : OpId) : Decidable id.InRange := inferInstanceAs (Decidable (_ ∧ _))

instance : (action : Action) → Decidable action.InRange
  | .send .. | .recv .. => inferInstanceAs (Decidable (_ ∧ _))
  | .calc _ => inferInstanceAs (Decidable (_ < _))

namespace Trace

/-- Whether the numbers of a record have 64 bits. -/
structure Record.InRange (record : Record) : Prop where
  id : record.id < UInt64.size
  action : record.action.InRange
  requires : ∀ dep ∈ record.requires, dep.InRange

structure RankRecord.InRange (trace : RankRecord) : Prop where
  rank : trace.rank < UInt64.size
  ops : ∀ record ∈ trace.ops, record.InRange

structure Document.InRange (doc : Document) : Prop where
  rankCount : doc.rankCount < UInt64.size
  ranks : ∀ trace ∈ doc.ranks, trace.InRange

def opIdMembers (id : OpId) : List (String × Value) :=
  [("rank", .number id.rank), ("index", .number id.index)]

/-- The members of a record but for its dependencies. -/
def Record.ownMembers (record : Record) : List (String × Value) :=
  ("id", .number record.id) :: ("kind", .text (actionName record.action)) ::
    actionMembers record.action

/-- A value that says what a record is: an object with its members in any order. Without
dependencies it may have an empty list of them or none. -/
inductive Record.Written (record : Record) (value : Value) : Prop
  | without (hnone : record.requires = []) (h : value.Arranges record.ownMembers)
  | listing (deps : List Value)
    (hdeps : List.Forall₂ (fun id value => value.Arranges (opIdMembers id)) record.requires deps)
    (h : value.Arranges (record.ownMembers ++ [("requires", .array deps)]))

def RankRecord.Written (trace : RankRecord) (value : Value) : Prop :=
  ∃ ops, List.Forall₂ Record.Written trace.ops ops ∧
    value.Arranges [("rank", .number trace.rank), ("ops", .array ops)]

def Document.Written (doc : Document) (value : Value) : Prop :=
  ∃ ranks, List.Forall₂ RankRecord.Written doc.ranks ranks ∧
    value.Arranges [("schema_version", .number doc.schemaVersion.toNat),
      ("num_ranks", .number doc.rankCount), ("ranks", .array ranks)]

theorem arranges_object (members : List (String × Value)) :
    (Value.object members).Arranges members :=
  ⟨members, rfl, .refl _⟩

theorem arranges_reverse {members order : List (String × Value)} (h : members.reverse = order) :
    (Value.object order).Arranges members :=
  ⟨order, rfl, h ▸ List.reverse_perm members⟩

theorem forall₂_map {α : Type} {R : α → Value → Prop} {f : α → Value} (h : ∀ x, R x (f x))
    (xs : List α) : List.Forall₂ R xs (xs.map f) := by
  rw [List.forall₂_map_right_iff, List.forall₂_same]
  exact fun x _ => h x

theorem written_record (record : Record) : record.Written record.value := by
  by_cases hnone : record.requires = []
  · refine .without hnone ?_
    rw [Record.value, if_pos (by simp [hnone]), List.append_nil]
    exact arranges_object _
  · refine .listing (record.requires.map opIdValue)
      (forall₂_map (fun id => arranges_object _) _) ?_
    rw [Record.value, if_neg (by simp [hnone])]
    exact arranges_object _

theorem written_value (doc : Document) : doc.Written doc.value :=
  ⟨_, forall₂_map (fun _ => ⟨_, forall₂_map written_record _, arranges_object _⟩) _,
    arranges_object _⟩

theorem shape_opId {id : OpId} (h : id.InRange) {value : Value}
    (hvalue : value.Arranges (opIdMembers id)) : opIdShape value.tree = .ok id := by
  have hrank : Keys.opRank.shape (Value.number id.rank).tree = .ok id.rank :=
    Shape.natural_number h.1 _
  have hindex : Keys.opIndex.shape (Value.number id.index).tree = .ok id.index :=
    Shape.natural_number h.2 _
  obtain ⟨entries, hentries, hlists⟩ := opIdForm.entries_arranged hvalue
    (by decide : ["rank", "index"].Nodup) (by
      simp only [opIdMembers, List.forall_mem_cons]
      exact ⟨checkEntry_slot Keys.opRank rfl hrank, checkEntry_slot Keys.opIndex rfl hindex,
        by simp⟩)
  have hgetRank := hlists.get_eq Keys.opRank List.mem_cons_self hrank
  have hgetIndex := hlists.get_eq Keys.opIndex (List.mem_cons_of_mem _ List.mem_cons_self) hindex
  simp only [opIdShape, hentries, hgetRank, hgetIndex, Except.bind, bind]
  rfl

def kindOf : Action → ActionName
  | .send .. => .send
  | .recv .. => .recv
  | .calc _ => .calc

theorem shape_kind (action : Action) :
    ActionName.shape (Value.text (actionName action)).tree = .ok (kindOf action) := by
  rw [Value.tree, ActionName.shape, Json.Quoted.get_of]
  cases action <;> rfl

/-- What is kept for a message tells its peer, size and tag. -/
theorem get_message {kept : Entries} {kind : Value} {peer size : Nat} {tag : Tag}
    (hkept : Lists kept [("kind", kind), ("peer", .number peer), ("size", .number size),
      ("tag", .number tag.toNat)])
    (hpeer : peer < UInt64.size) (hsize : size < UInt64.size) :
    Json.checkEntries ActionName.send.slots [] kept = .ok () ∧ Keys.peer.get kept = .ok peer ∧
      Keys.size.get kept = .ok size ∧ Keys.tag.get kept = .ok tag := by
  have hpeerShape : Keys.peer.shape (Value.number peer).tree = .ok peer :=
    Shape.natural_number hpeer _
  have hsizeShape : Keys.size.shape (Value.number size).tree = .ok size :=
    Shape.natural_number hsize _
  have htagShape : Keys.tag.shape (Value.number tag.toNat).tree = .ok tag :=
    Shape.halfWord_number tag
  refine ⟨hkept.checkEntries ?_, ?_, ?_, ?_⟩
  · simp only [List.forall_mem_cons]
    exact ⟨checkEntry_pass rfl rfl, checkEntry_slot Keys.peer rfl hpeerShape,
      checkEntry_slot Keys.size rfl hsizeShape, checkEntry_slot Keys.tag rfl htagShape, by simp⟩
  · exact hkept.get_eq Keys.peer (by simp [Keys.peer, Json.Key.required]) hpeerShape
  · exact hkept.get_eq Keys.size (by simp [Keys.size, Json.Key.required]) hsizeShape
  · exact hkept.get_eq Keys.tag (by simp [Keys.tag, Json.Key.required]) htagShape

theorem get_computation {kept : Entries} {kind : Value} {cost : Nat}
    (hkept : Lists kept [("kind", kind), ("cost", .number cost)]) (hcost : cost < UInt64.size) :
    Json.checkEntries ActionName.calc.slots [] kept = .ok () ∧ Keys.cost.get kept = .ok cost := by
  have hcostShape : Keys.cost.shape (Value.number cost).tree = .ok cost :=
    Shape.natural_number hcost _
  refine ⟨hkept.checkEntries ?_, ?_⟩
  · simp only [List.forall_mem_cons]
    exact ⟨checkEntry_pass rfl rfl, checkEntry_slot Keys.cost rfl hcostShape, by simp⟩
  · exact hkept.get_eq Keys.cost (by simp [Keys.cost, Json.Key.required]) hcostShape

/-- What a record keeps for its action tells the action, wherever the kind stands in it. -/
theorem actionOf_eq {action : Action} (h : action.InRange) {kept : Entries}
    (hkept : Lists kept (("kind", .text (actionName action)) :: actionMembers action)) :
    actionOf kept = .ok action := by
  have hkinds : kept.filter (·.1 = "kind") =
      [("kind", (Value.text (actionName action)).tree)] := by
    have hmembers : (("kind", .text (actionName action)) :: actionMembers action).filter
        (fun member : String × Value => member.1 = "kind") =
          [("kind", .text (actionName action))] := by
      cases action <;> simp [actionMembers]
    have hperm := (hkept.filter (· = "kind")).perm
    rw [hmembers] at hperm
    exact List.perm_singleton.1 hperm
  rw [actionOf, hkinds]
  simp only [shape_kind, List.isEmpty_nil, bind, Except.bind]
  rcases action with ⟨peer, size, tag⟩ | ⟨peer, size, tag⟩ | cost
  · obtain ⟨hcheck, hpeer, hsize, htag⟩ := get_message hkept h.1 h.2
    simp only [kindOf, ActionName.action, hcheck, hpeer, hsize, htag, bind, Except.bind]
    rfl
  · obtain ⟨hcheck, hpeer, hsize, htag⟩ := get_message hkept h.1 h.2
    have hslots : ActionName.recv.slots = ActionName.send.slots := rfl
    simp only [kindOf, ActionName.action, hslots, hcheck, hpeer, hsize, htag, bind, Except.bind]
    rfl
  · obtain ⟨hcheck, hcost⟩ := get_computation hkept h
    simp only [kindOf, ActionName.action, hcheck, hcost, bind, Except.bind]
    rfl

theorem names_ownMembers (record : Record) :
    (record.ownMembers.map Prod.fst).Nodup ∧ "requires" ∉ record.ownMembers.map Prod.fst := by
  obtain ⟨id, action, requires⟩ := record
  cases action <;> simp [Record.ownMembers, actionMembers]

/-- What a record keeps of its own members is what tells its action. -/
theorem kept_ownMembers (record : Record) :
    record.ownMembers.filter (fun member => member.1 ≠ "id" ∧ member.1 ≠ "requires") =
      ("kind", .text (actionName record.action)) :: actionMembers record.action := by
  obtain ⟨id, action, requires⟩ := record
  cases action <;> simp [Record.ownMembers, actionMembers]

theorem checkEntry_ownMembers {record : Record} (h : record.InRange) :
    ∀ member ∈ record.ownMembers,
      Json.checkEntry [Keys.id.slot, Keys.requires.slot] (Json.Tree.scan keptDepth) [] member.1
        member.2.tree = .ok () := by
  have hid : Keys.id.shape (Value.number record.id).tree = .ok record.id :=
    Shape.natural_number h.id _
  rw [Record.ownMembers, List.forall_mem_cons, List.forall_mem_cons]
  refine ⟨checkEntry_slot Keys.id rfl hid, checkEntry_pass rfl (Json.scan_text _ _), ?_⟩
  rcases record.action with ⟨peer, size, tag⟩ | ⟨peer, size, tag⟩ | cost <;>
    simp only [actionMembers, List.forall_mem_cons]
  · exact ⟨checkEntry_pass rfl rfl, checkEntry_pass rfl rfl, checkEntry_pass rfl rfl, by simp⟩
  · exact ⟨checkEntry_pass rfl rfl, checkEntry_pass rfl rfl, checkEntry_pass rfl rfl, by simp⟩
  · exact ⟨checkEntry_pass rfl rfl, by simp⟩

/-- How a record is completed: by nothing if it has no dependencies, or by a value that is read as
these. -/
inductive Record.Completed (record : Record) : List (String × Value) → Prop
  | without (hnone : record.requires = []) : Completed record []
  | listing {value : Value} (h : Keys.requires.shape value.tree = .ok record.requires) :
    Completed record [("requires", value)]

namespace Record.Completed

variable {record : Record} {tail : List (String × Value)} {entries : Entries}

theorem nodup (h : record.Completed tail) :
    ((record.ownMembers ++ tail).map Prod.fst).Nodup := by
  obtain ⟨hown, hnew⟩ := names_ownMembers record
  cases h with
  | without => rwa [List.append_nil]
  | listing =>
    rw [List.map_append, List.map_singleton]
    exact hown.append (List.nodup_singleton _) (List.disjoint_singleton.2 hnew)

theorem checkEntry (h : record.Completed tail) (hrange : record.InRange) :
    ∀ member ∈ record.ownMembers ++ tail,
      Json.checkEntry [Keys.id.slot, Keys.requires.slot] (Json.Tree.scan keptDepth) [] member.1
        member.2.tree = .ok () := by
  rw [List.forall_mem_append]
  refine ⟨checkEntry_ownMembers hrange, ?_⟩
  cases h with
  | without => simp
  | listing hshape =>
    rw [List.forall_mem_singleton]
    exact checkEntry_slot Keys.requires rfl hshape

/-- A record without dependencies may leave them out. -/
theorem get_requires (h : record.Completed tail)
    (hlists : Lists entries (record.ownMembers ++ tail)) :
    Keys.requires.get entries = .ok record.requires := by
  cases h with
  | without hnone =>
    rw [hnone]
    exact hlists.get_default rfl (by
      rw [List.append_nil]
      exact (names_ownMembers record).2)
  | listing hshape =>
    exact hlists.get_eq Keys.requires (List.mem_append_right _ List.mem_cons_self) hshape

/-- What is kept for the action is there however the record is completed. -/
theorem kept (h : record.Completed tail) (hlists : Lists entries (record.ownMembers ++ tail)) :
    Lists (entries.filter fun entry => entry.1 ≠ "id" ∧ entry.1 ≠ "requires")
      (("kind", .text (actionName record.action)) :: actionMembers record.action) := by
  have hfilter := hlists.filter fun name => name ≠ "id" ∧ name ≠ "requires"
  rw [List.filter_append, kept_ownMembers] at hfilter
  cases h <;> simpa using hfilter

end Record.Completed

theorem shape_record_of {record : Record} (h : record.InRange) {tail : List (String × Value)}
    (htail : record.Completed tail) {value : Value}
    (hvalue : value.Arranges (record.ownMembers ++ tail)) :
    Record.shape value.tree = .ok record := by
  have hid : Keys.id.shape (Value.number record.id).tree = .ok record.id :=
    Shape.natural_number h.id _
  obtain ⟨trees, entries, htree, hentries, hlists⟩ :=
    hvalue.entries htail.nodup (htail.checkEntry h)
  have hgetId : Keys.id.get entries = .ok record.id :=
    hlists.get_eq Keys.id List.mem_cons_self hid
  rw [htree, Record.shape, hentries]
  simp only [hgetId, htail.get_requires hlists, actionOf_eq h.action (htail.kept hlists), bind,
    Except.bind]
  rfl

theorem shape_record {record : Record} (h : record.InRange) {value : Value}
    (hvalue : record.Written value) : Record.shape value.tree = .ok record := by
  cases hvalue with
  | without hnone hvalue =>
    exact shape_record_of h (.without hnone) (by rwa [List.append_nil])
  | listing deps hdeps hvalue =>
    have hshape : Keys.requires.shape (Value.array deps).tree = .ok record.requires :=
      Shape.sequence_array (fun _ _ hid => shape_opId hid) h.requires hdeps
    exact shape_record_of h (.listing hshape) hvalue

theorem shape_rankRecord {trace : RankRecord} (h : trace.InRange) {value : Value}
    (hvalue : trace.Written value) : RankRecord.shape value.tree = .ok trace := by
  obtain ⟨ops, hops, hvalue⟩ := hvalue
  have hrank : Keys.rank.shape (Value.number trace.rank).tree = .ok trace.rank :=
    Shape.natural_number h.rank _
  have hrecords : Keys.ops.shape (Value.array ops).tree = .ok trace.ops :=
    Shape.sequence_array (fun _ _ hrecord => shape_record hrecord) h.ops hops
  obtain ⟨entries, hentries, hlists⟩ := RankRecord.form.entries_arranged hvalue
    (by decide : ["rank", "ops"].Nodup) (by
      simp only [List.forall_mem_cons]
      exact ⟨checkEntry_slot Keys.rank rfl hrank, checkEntry_slot Keys.ops rfl hrecords, by simp⟩)
  have hgetRank := hlists.get_eq Keys.rank List.mem_cons_self hrank
  have hgetOps := hlists.get_eq Keys.ops (List.mem_cons_of_mem _ List.mem_cons_self) hrecords
  simp only [RankRecord.shape, hentries, hgetRank, hgetOps, Except.bind, bind]
  rfl

theorem shape_document {doc : Document} (h : doc.InRange) {value : Value}
    (hvalue : doc.Written value) : Document.shape value.tree = .ok doc := by
  obtain ⟨ranks, hranks, hvalue⟩ := hvalue
  have hversion : Keys.schemaVersion.shape (Value.number doc.schemaVersion.toNat).tree =
      .ok doc.schemaVersion := Shape.halfWord_number doc.schemaVersion
  have hcount : Keys.rankCount.shape (Value.number doc.rankCount).tree = .ok doc.rankCount :=
    Shape.natural_number h.rankCount _
  have htraces : Keys.ranks.shape (Value.array ranks).tree = .ok doc.ranks :=
    Shape.sequence_array (fun _ _ htrace => shape_rankRecord htrace) h.ranks hranks
  obtain ⟨entries, hentries, hlists⟩ := Document.form.entries_arranged hvalue
    (by decide : ["schema_version", "num_ranks", "ranks"].Nodup) (by
      simp only [List.forall_mem_cons]
      exact ⟨checkEntry_slot Keys.schemaVersion rfl hversion,
        checkEntry_slot Keys.rankCount rfl hcount, checkEntry_slot Keys.ranks rfl htraces, by simp⟩)
  have hgetVersion := hlists.get_eq Keys.schemaVersion List.mem_cons_self hversion
  have hgetCount := hlists.get_eq Keys.rankCount (List.mem_cons_of_mem _ List.mem_cons_self) hcount
  have hgetRanks := hlists.get_eq Keys.ranks
    (List.mem_cons_of_mem _ (List.mem_cons_of_mem _ List.mem_cons_self)) htraces
  simp only [Document.shape, hentries, hgetVersion, hgetCount, hgetRanks, Except.bind, bind]
  rfl

theorem fits_opId {id : OpId} (h : id.InRange) {value : Value}
    (hvalue : value.Arranges (opIdMembers id)) : value.Fits := by
  apply hvalue.fits
  simp only [opIdMembers, List.forall_mem_cons]
  exact ⟨.number h.1, .number h.2, by simp⟩

theorem fits_actionMembers {action : Action} (h : action.InRange) :
    ∀ member ∈ actionMembers action, member.2.Fits := by
  have htag : ∀ tag : Tag, tag.toNat < UInt64.size := fun tag =>
    tag.toNat_lt_size.trans (by decide)
  rcases action with ⟨peer, size, tag⟩ | ⟨peer, size, tag⟩ | cost <;>
    simp only [actionMembers, List.forall_mem_cons]
  · exact ⟨.number h.1, .number h.2, .number (htag tag), by simp⟩
  · exact ⟨.number h.1, .number h.2, .number (htag tag), by simp⟩
  · exact ⟨.number h, by simp⟩

theorem fits_ownMembers {record : Record} (h : record.InRange) :
    ∀ member ∈ record.ownMembers, member.2.Fits := by
  rw [Record.ownMembers, List.forall_mem_cons, List.forall_mem_cons]
  exact ⟨.number h.id, .text _, fits_actionMembers h.action⟩

theorem fits_record {record : Record} (h : record.InRange) {value : Value}
    (hvalue : record.Written value) : value.Fits := by
  cases hvalue with
  | without hnone hvalue => exact hvalue.fits (fits_ownMembers h)
  | listing deps hdeps hvalue =>
    apply hvalue.fits
    rw [List.forall_mem_append, List.forall_mem_singleton]
    exact ⟨fits_ownMembers h, Value.fits_array (fun _ _ hid => fits_opId hid) h.requires hdeps⟩

theorem fits_rankRecord {trace : RankRecord} (h : trace.InRange) {value : Value}
    (hvalue : trace.Written value) : value.Fits := by
  obtain ⟨ops, hops, hvalue⟩ := hvalue
  apply hvalue.fits
  simp only [List.forall_mem_cons]
  exact ⟨.number h.rank, Value.fits_array (fun _ _ hrecord => fits_record hrecord) h.ops hops,
    by simp⟩

theorem fits_document {doc : Document} (h : doc.InRange) {value : Value}
    (hvalue : doc.Written value) : value.Fits := by
  obtain ⟨ranks, hranks, hvalue⟩ := hvalue
  apply hvalue.fits
  simp only [List.forall_mem_cons]
  exact ⟨.number (doc.schemaVersion.toNat_lt_size.trans (by decide)), .number h.rankCount,
    Value.fits_array (fun _ _ htrace => fits_rankRecord htrace) h.ranks hranks, by simp⟩

/-- Any text that says what a document is, with blanks behind it, is read as the document. -/
theorem read_written {doc : Document} (h : doc.InRange) {value : Value} (hvalue : doc.Written value)
    (layout : Json.Layout) {blanks : List Char} (hblanks : ∀ c ∈ blanks, Json.isSpace c = true) :
    Document.read (value.render layout ++ .ofList blanks) = .ok doc := by
  rw [Document.read, Shape.read, Json.Reading.of_render (fits_document h hvalue) layout hblanks]
  simp only [shape_document h hvalue]
  rfl

/-- The schedule that a document tells. -/
def Document.schedule (doc : Document) : Schedule :=
  ⟨doc.ranks.map fun trace => trace.ops.map fun record => ⟨record.action, record.requires⟩⟩

theorem schedule_ofSchedule (s : Schedule) : (Document.ofSchedule s).schedule = s := by
  simp [Document.schedule, Document.ofSchedule, RankRecord.ofOps, Function.comp_def,
    List.zipIdx_map_fst]

end Trace

/-- Whether the numbers of a schedule have 64 bits, those of its ranks and operations too. -/
structure Schedule.InRange (s : Schedule) : Prop where
  rankCount : s.rankCount < UInt64.size
  opCount : ∀ ops ∈ s.ranks, ops.length ≤ UInt64.size
  action : ∀ ops ∈ s.ranks, ∀ op ∈ ops, op.action.InRange
  requires : ∀ ops ∈ s.ranks, ∀ op ∈ ops, ∀ dep ∈ op.requires, dep.InRange

namespace Trace

theorem inRange_ofSchedule {s : Schedule} (h : s.InRange) : (Document.ofSchedule s).InRange := by
  refine ⟨h.rankCount, ?_⟩
  rintro _ htrace
  obtain ⟨⟨ops, rank⟩, hmem, rfl⟩ := List.mem_map.1 htrace
  have hget := List.mem_zipIdx_iff_getElem?.1 hmem
  have hops : ops ∈ s.ranks := List.mem_of_getElem? hget
  have hrank : rank < s.rankCount := (List.getElem?_eq_some_iff.1 hget).1
  refine ⟨hrank.trans h.rankCount, ?_⟩
  rintro _ hrecord
  obtain ⟨⟨op, index⟩, hmem, rfl⟩ := List.mem_map.1 hrecord
  have hget := List.mem_zipIdx_iff_getElem?.1 hmem
  have hop : op ∈ ops := List.mem_of_getElem? hget
  have hindex : index < ops.length := (List.getElem?_eq_some_iff.1 hget).1
  exact ⟨hindex.trans_le (h.opCount ops hops), h.action ops hops op hop, h.requires ops hops op hop⟩

theorem read_text {s : Schedule} (h : s.InRange) :
    Document.read (Format.text .json s) = .ok (.ofSchedule s) := by
  have htext : Format.text .json s =
      (Document.ofSchedule s).value.render .pretty ++ .ofList ['\n'] := by
    simp [Format.text, Format.pieces, Value.render]
  rw [htext]
  exact read_written (inRange_ofSchedule h) (written_value _) .pretty (by simp [Json.isSpace])

/-- The JSON text tells everything. Whatever the numbers of a document are, a text of it is read as
this document: compact or not, with the members of every object in any order, with an empty list of
dependencies or none, and with blanks at the end. The text of a schedule is read as its document,
which gives the schedule back; so no two schedules have the same text. -/
theorem json_text_tells :
    (∀ doc : Document, doc.InRange → doc.Written doc.value ∧
        ∀ value, doc.Written value → ∀ (layout : Json.Layout) (blanks : List Char),
          (∀ c ∈ blanks, Json.isSpace c = true) →
            Document.read (value.render layout ++ .ofList blanks) = .ok doc) ∧
      (∀ s : Schedule, s.InRange →
        Document.read (Format.text .json s) = .ok (.ofSchedule s) ∧
          (Document.ofSchedule s).schedule = s) ∧
      ∀ s t : Schedule, s.InRange → t.InRange →
        Format.text .json s = Format.text .json t → s = t := by
  refine ⟨fun doc h => ⟨written_value doc, fun value hvalue layout blanks hblanks =>
    read_written h hvalue layout hblanks⟩, fun s h => ⟨read_text h, schedule_ofSchedule s⟩, ?_⟩
  intro s t hs ht htext
  have hread : (Except.ok (Document.ofSchedule s) : Except Json.Problem Document) =
      .ok (.ofSchedule t) := by
    rw [← read_text hs, htext, read_text ht]
  rw [← schedule_ofSchedule s, Except.ok.inj hread, schedule_ofSchedule t]

/-- A text with all members the other way round, so that the kind stands behind what it is the kind
of, with an empty list of dependencies, and with the largest numbers there are. -/
theorem json_text_tells_reversed :
    let largest := UInt64.size - 1
    let doc : Document := ⟨7, largest, [⟨5, [⟨9, .recv largest 3 Tag.last, []⟩,
      ⟨9, .calc 4, [⟨largest, 1⟩]⟩]⟩]⟩
    let message : Value := .object [("requires", .array []), ("tag", .number 4294967295),
      ("size", .number 3), ("peer", .number largest), ("kind", .text "recv"), ("id", .number 9)]
    let computation : Value := .object [
      ("requires", .array [.object [("index", .number 1), ("rank", .number largest)]]),
      ("cost", .number 4), ("kind", .text "calc"), ("id", .number 9)]
    let value : Value := .object [
      ("ranks", .array [.object [("ops", .array [message, computation]), ("rank", .number 5)]]),
      ("num_ranks", .number largest), ("schema_version", .number 7)]
    let linked : Schedule := ⟨[[⟨.send 1 8 3, [⟨1, 0⟩]⟩], [⟨.calc 2, []⟩]]⟩
    doc.InRange ∧ doc.Written value ∧
      Document.read (value.render .compact ++ .ofList [' ', '\n']) = .ok doc ∧
      linked.InRange ∧ Document.read (Format.text .json linked) = .ok (.ofSchedule linked) := by
  intro largest doc message computation value linked
  have hdoc : doc.InRange := by
    refine ⟨by decide, List.forall_mem_singleton.2 ⟨by decide, ?_⟩⟩
    rw [List.forall_mem_cons, List.forall_mem_singleton]
    exact ⟨⟨by decide, by decide, by decide⟩, ⟨by decide, by decide, by decide⟩⟩
  have hmessage : Record.Written ⟨9, .recv largest 3 Tag.last, []⟩ message :=
    .listing [] .nil (arranges_reverse rfl)
  have hcomputation : Record.Written ⟨9, .calc 4, [⟨largest, 1⟩]⟩ computation :=
    .listing _ (.cons (arranges_reverse rfl) .nil) (arranges_reverse rfl)
  have hvalue : doc.Written value :=
    ⟨_, .cons ⟨_, .cons hmessage (.cons hcomputation .nil), arranges_reverse rfl⟩ .nil,
      arranges_reverse rfl⟩
  have hlinked : linked.InRange := ⟨by decide, by decide, by decide, by decide⟩
  obtain ⟨hdocuments, hschedules, -⟩ := json_text_tells
  exact ⟨hdoc, hvalue, (hdocuments doc hdoc).2 value hvalue .compact _ (by simp [Json.isSpace]),
    hlinked, (hschedules linked hlinked).1⟩

end Trace
end Collectives
