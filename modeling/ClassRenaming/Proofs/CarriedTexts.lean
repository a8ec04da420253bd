import ClassRenaming.Proofs.ProcessingOrder
import ClassRenaming.Proofs.RecomputedClasses
import ClassRenaming.Proofs.Reencoding
import ClassRenaming.Proofs.RenamedSites
import ClassRenaming.Proofs.RenamedUnits

/-!
What relocating a class makes of its strings and names, unit by unit. As long as no pair of units in
the pool is one of the last characters of Unicode, a string has its packages renamed and keeps every
other unit, and a name keeps them all. Such a pair is taken for a half of a pair by itself, and another
string can come out in the place of one that has it.
-/

namespace ClassRenaming

open ModifiedUtf8

/-- What becomes of a label that is spelled by its units: a string has its packages renamed, and a name
stays. -/
def Label.carried (table : Renaming) : Label → Label
  | .string text => .string (table.unitTable.binary text)
  | .name text => .name text

theorem Label.carried_of_free {table : Renaming} {text : String} (free : table.unitTable.Free text) :
    carried table (.string text) = .string text := by
  rw [carried, Renaming.binary, Renaming.binary?_eq_none_iff.2 free, Option.getD_none]

/-- The labels of a result are those that a member has, in their order and with strings renamed. Those
of repeated annotations and of code that is never reached are gone; all others are there. -/
structure Member.Carries (table : Renaming) (member result : Member) : Prop where
  name : result.name = member.name
  labels : result.labels.Sublist (member.labels.map (Label.carried table))
  lasting : result.lasting = member.lasting.map (Label.carried table)

structure ClassModel.Carries (table : Renaming) (model result : ClassModel) : Prop where
  fields : List.Forall₂ (Member.Carries table) model.fields result.fields
  methods : List.Forall₂ (Member.Carries table) model.methods result.methods
  labels : (Attribute.listLabels result.attributes).Sublist
    ((Attribute.listLabels model.attributes).map (Label.carried table))
  lasting : Attribute.listLasting result.attributes =
    (Attribute.listLasting model.attributes).map (Label.carried table)

/-! Parts that lose labels and change none. -/

theorem forall₂_imp_of_mem {α β : Type} {r s : α → β → Prop} {items : List α} {others : List β}
    (all : List.Forall₂ r items others) (each : ∀ item ∈ items, ∀ other, r item other → s item other) :
    List.Forall₂ s items others := by
  induction all with
  | nil => exact .nil
  | cons here _ ih =>
    rw [List.forall_mem_cons] at each
    exact .cons (each.1 _ here) (ih each.2)

structure Member.Retains (member result : Member) : Prop where
  name : result.name = member.name
  labels : result.labels.Sublist member.labels
  lasting : result.lasting = member.lasting

structure ClassModel.Retains (model result : ClassModel) : Prop where
  fields : List.Forall₂ Member.Retains model.fields result.fields
  methods : List.Forall₂ Member.Retains model.methods result.methods
  labels : (Attribute.listLabels result.attributes).Sublist
    (Attribute.listLabels model.attributes)
  lasting : Attribute.listLasting result.attributes = Attribute.listLasting model.attributes

theorem Member.Retains.refl (member : Member) : member.Retains member :=
  ⟨rfl, List.Sublist.refl _, rfl⟩

theorem Member.Retains.trans {first second third : Member} (before : first.Retains second)
    (after : second.Retains third) : first.Retains third :=
  ⟨after.name.trans before.name, after.labels.trans before.labels,
    after.lasting.trans before.lasting⟩

theorem Member.Retains.mapTexts (m : TextMap) (kind : Signature.Kind) {member result : Member}
    (retains : member.Retains result) : (member.mapTexts m kind).Retains (result.mapTexts m kind) := by
  refine ⟨congrArg m.name retains.name, ?_, ?_⟩
  · rw [Member.labels_mapTexts, Member.labels_mapTexts]
    exact retains.labels.map _
  · rw [Member.lasting_mapTexts, Member.lasting_mapTexts, retains.lasting]

theorem Member.Leaves.retains {member left : Member} (leaves : member.Leaves left) :
    member.Retains left := by
  refine ⟨leaves.name, ?_, ?_⟩
  · rw [Member.labels, Member.labels, leaves.name]
    exact leaves.attributes.labels_sublist.cons_cons _
  · rw [Member.lasting, Member.lasting, leaves.name, leaves.attributes.lasting_eq]

theorem Member.Recomputed.retains {good : String → Prop} {kind : Signature.Kind}
    {member result : Member} (here : member.Recomputed good kind result) : member.Retains result := by
  refine ⟨here.name, ?_, ?_⟩
  · rw [Member.labels, Member.labels, here.name]
    exact (Attribute.Recomputed.labels_list here.attributes).cons_cons _
  · rw [Member.lasting, Member.lasting, here.name, Attribute.Recomputed.lasting_list here.attributes]

theorem Member.ComesBack.retains {pool : ConstantPool} {member result : Member}
    (comes : member.ComesBack pool result) : member.Retains result := by
  refine ⟨comes.name, ?_, ?_⟩
  · rw [Member.labels, Member.labels, comes.name]
    exact comes.attributes.labels_sublist.cons_cons _
  · rw [Member.lasting, Member.lasting, comes.name, comes.attributes.lasting_eq]

namespace ClassModel

theorem Retains.trans {first second third : ClassModel} (before : first.Retains second)
    (after : second.Retains third) : first.Retains third where
  fields := forall₂_trans .trans before.fields after.fields
  methods := forall₂_trans .trans before.methods after.methods
  labels := after.labels.trans before.labels
  lasting := after.lasting.trans before.lasting

theorem Retains.mapTexts (m : TextMap) {model result : ClassModel} (retains : model.Retains result) :
    (model.mapTexts m).Retains (result.mapTexts m) where
  fields := by
    refine List.forall₂_map_left_iff.2 (List.forall₂_map_right_iff.2 ?_)
    exact retains.fields.imp fun _ _ => .mapTexts m .field
  methods := by
    refine List.forall₂_map_left_iff.2 (List.forall₂_map_right_iff.2 ?_)
    exact retains.methods.imp fun _ _ => .mapTexts m .method
  labels := by
    have fewer := retains.labels.map (Label.mapTexts m)
    rw [← Attribute.listLabels_mapTexts m .type, ← Attribute.listLabels_mapTexts m .type] at fewer
    exact fewer
  lasting := by
    have same := congrArg (List.map (Label.mapTexts m)) retains.lasting
    rw [← Attribute.listLasting_mapTexts m .type, ← Attribute.listLasting_mapTexts m .type] at same
    exact same

theorem Leaves.retains {model left : ClassModel} (leaves : model.Leaves left) :
    model.Retains left where
  fields := leaves.fields.imp fun _ _ => Member.Leaves.retains
  methods := leaves.methods.imp fun _ _ => Member.Leaves.retains
  labels := leaves.attributes.labels_sublist
  lasting := leaves.attributes.lasting_eq

theorem retains_recomputed {good : String → Prop} {model : ClassModel} {methods : List Member}
    (all : List.Forall₂ (Member.Recomputed good .method) model.methods methods) :
    model.Retains { model with methods } where
  fields := List.forall₂_same.2 fun member _ => .refl member
  methods := all.imp fun _ _ => Member.Recomputed.retains
  labels := List.Sublist.refl _
  lasting := rfl

theorem ComesBack.retains {pool : ConstantPool} {model result : ClassModel}
    (comes : model.ComesBack pool result) : model.Retains result where
  fields := comes.fields.imp fun _ _ => Member.ComesBack.retains
  methods := comes.methods.imp fun _ _ => Member.ComesBack.retains
  labels := comes.attributes.labels_sublist
  lasting := comes.attributes.lasting_eq

end ClassModel

/-! Labels that are stored as they are. -/

def Label.Storable : Label → Prop
  | .string text => ModifiedUtf8.Storable text
  | .name _ => True

section Carried

variable {table : Renaming} (whole : table.Whole)

include whole

theorem Label.map_carried {labels : List Label} (storable : ∀ label ∈ labels, label.Storable) :
    (labels.map (Label.mapTexts (.ofTable table))).map (Label.mapTexts (.all spelled)) =
      (labels.map (Label.mapTexts (.all spelled))).map (Label.carried table) := by
  rw [List.map_map, List.map_map]
  apply List.map_congr_left
  intro label listed
  cases label with
  | name text => rfl
  | string text =>
    have same := Renaming.binary_unitTable whole (storable _ listed)
    exact congrArg Label.string same.symm

theorem Member.Retains.carries {kind : Signature.Kind} {member result : Member}
    (storable : ∀ label ∈ member.labels, label.Storable)
    (retains : ((member.mapTexts (.ofTable table) kind).mapTexts (.all spelled) kind).Retains result) :
    (member.mapTexts (.all spelled) kind).Carries table result := by
  refine ⟨retains.name, ?_, ?_⟩
  · have fewer := retains.labels
    rw [Member.labels_mapTexts, Member.labels_mapTexts, Label.map_carried whole storable] at fewer
    rwa [Member.labels_mapTexts]
  · have same := retains.lasting
    rw [Member.lasting_mapTexts, Member.lasting_mapTexts, Label.map_carried whole fun label inside =>
      storable label (member.lasting_sublist.subset inside)] at same
    rwa [Member.lasting_mapTexts]

theorem Member.forall₂_carries {kind : Signature.Kind} {members results : List Member}
    (storable : ∀ member ∈ members, ∀ label ∈ member.labels, label.Storable)
    (retains : List.Forall₂ Member.Retains ((members.map (Member.mapTexts (.ofTable table) kind)).map
      (Member.mapTexts (.all spelled) kind)) results) :
    List.Forall₂ (Member.Carries table) (members.map (Member.mapTexts (.all spelled) kind))
      results := by
  rw [List.map_map, List.forall₂_map_left_iff] at retains
  refine List.forall₂_map_left_iff.2 (forall₂_imp_of_mem retains fun member listed _ here => ?_)
  exact here.carries whole (storable member listed)

theorem ClassModel.Retains.carries {model result : ClassModel}
    (storable : ∀ label ∈ model.labels, label.Storable)
    (retains : ((model.mapTexts (.ofTable table)).mapTexts (.all spelled)).Retains result) :
    (model.mapTexts (.all spelled)).Carries table result := by
  simp only [ClassModel.labels, List.mem_append, List.mem_flatMap] at storable
  constructor
  case fields =>
    refine Member.forall₂_carries whole (fun member listed label inside => ?_) retains.fields
    exact storable label (.inl (.inl ⟨member, listed, inside⟩))
  case methods =>
    refine Member.forall₂_carries whole (fun member listed label inside => ?_) retains.methods
    exact storable label (.inl (.inr ⟨member, listed, inside⟩))
  case labels =>
    have fewer := retains.labels
    simp only [ClassModel.mapTexts, Attribute.listLabels_mapTexts] at fewer ⊢
    rwa [Label.map_carried whole fun label inside => storable label (.inr inside)] at fewer
  case lasting =>
    have same := retains.lasting
    have inside := (Attribute.listLasting_sublist model.attributes).subset
    simp only [ClassModel.mapTexts, Attribute.listLasting_mapTexts] at same ⊢
    rwa [Label.map_carried whole fun label here => storable label (.inr (inside here))] at same

end Carried

/-! Pools that tell the units of their texts. -/

section Tells

variable {bytes written : Bytes} {file : ClassFile} (parsed : ClassFile.parse bytes = .ok file)
  (keep : ∀ entry ∈ file.pool.entries.toList, entry.pairsKeep = true)

include parsed keep

theorem ClassFile.tellsUnits_of_parse : ∀ entry ∈ file.pool.entries.toList, entry.TellsUnits :=
  fun entry member => (ClassFile.own_of_parse parsed entry member).tellsUnits (keep entry member)

theorem ClassFile.storable_of_parse : ∀ label ∈ file.model.labels, label.Storable := by
  have pool : ∀ index text, file.pool.utf8 index = .ok text → Storable text := by
    intro index text found
    obtain ⟨stored, exact, here⟩ := ConstantPool.utf8_eq_ok.1 found
    have member := List.mem_of_getElem? (ConstantPool.entry_eq_ok.1 here).1
    have same := text_of_decode (ClassFile.own_of_parse parsed _ member)
    rw [Storable, show text = _ from same, String.toList_ofList]
    exact apart_unitsChars (keep _ member)
  have kept := congrArg ClassModel.labels (ClassFile.onlyGood_of_parse known_storable parsed pool)
  rw [ClassModel.labels_mapTexts] at kept
  intro label listed
  have same := map_eq_self_iff.1 kept label listed
  cases label with
  | name text => trivial
  | string text =>
    have good : onlyGood Storable text = text := Label.string.inj same
    unfold onlyGood at good
    split at good
    case isTrue here => exact here
    case isFalse =>
      subst good
      exact .nil

theorem ClassFile.parseAs_of_written {model : ClassModel} (proper : model.Proper file.pool.depth)
    (done : ClassFile.toBytes { file with model } = .ok written) :
    ∃ after, ClassFile.parseAs PoolEntry.byUnits written = .ok after ∧
      (model.mapTexts (.all spelled)).ComesBack after.pool after.model := by
  obtain ⟨⟨body, last⟩, inside, done⟩ := Except.bind_eq_ok.1 done
  cases done
  have empty : file.pool.depth = 0 → file.pool.bootstrap = #[] := ConstantPool.bootstrap_of_depth
  have sound := (ClassFile.proper_of_parse parsed).1
  have still : model.mapTexts (.all id) = model := model.mapTexts_eq_self fun _ _ => rfl
  obtain ⟨-, -, more, -⟩ :=
    ClassModel.writes_of_write .id proper ConstantPool.depth_le sound empty still inside
  have tells : ∀ entry ∈ last.entries.toList, entry.TellsUnits := by
    intro entry member
    cases entry with
    | utf8 text stored exact =>
      rcases more.fresh member with old | ⟨-, -, new, -⟩
      · exact ClassFile.tellsUnits_of_parse parsed keep _ old
      · rw [new]
        exact units_encode text
    | _ => trivial
  obtain ⟨-, -, reads⟩ :=
    ClassFile.parseAs_of_write proper ConstantPool.depth_le sound empty inside
  obtain ⟨result, read, comes⟩ :=
    reads (ConstantPool.retold_reread_byUnits tells) keepsKnown_spelled
  exact ⟨⟨result, _⟩, read, comes⟩

end Tells

/-- What is written of a class that is relocated has the labels of the class, unit by unit: with the
packages in its strings renamed, and with its names and every string without a source as they were. -/
theorem Relocator.relocate_carries (relocator : Relocator) (whole : relocator.table.Whole)
    (hint : Option String) (cache : MetadataCache) {bytes : Bytes} {file : ClassFile}
    {result : Relocated} (parsed : ClassFile.parse bytes = .ok file)
    (keep : ∀ entry ∈ file.pool.entries.toList, entry.pairsKeep = true)
    (done : (relocator.relocate hint bytes cache).1 = .ok result)
    (changed : result.changed = true) :
    ∃ before after, ClassFile.parseAs PoolEntry.byUnits bytes = .ok before ∧
      ClassFile.parseAs PoolEntry.byUnits result.bytes = .ok after ∧
      before.model.Carries relocator.table after.model ∧
      ∀ text, relocator.table.unitTable.Free text →
        Label.carried relocator.table (.string text) = .string text := by
  have anything : relocator.hierarchy.Declares (fun _ => True) cache :=
    fun _ => ⟨fun _ _ => trivial, fun _ _ => trivial⟩
  have made := (keeps_changed .trivial hint bytes fun _ _ _ _ => trivial) cache anything
  obtain ⟨file', methods, parsed', all, written⟩ := made.1 result done changed
  obtain rfl : file = file' := Except.ok.inj (parsed.symm.trans parsed')
  have proper := ((ClassFile.proper_of_parse parsed).2.relocate relocator.table).recomputed all
  obtain ⟨after, read, comes⟩ := ClassFile.parseAs_of_written parsed keep proper written
  have before := ClassFile.parseAs_of_parse
    (ConstantPool.retold_byUnits (ClassFile.tellsUnits_of_parse parsed keep)) keepsKnown_spelled parsed
  refine ⟨_, after, before, read, ?_, fun text => Label.carried_of_free⟩
  -- First the names are changed, then annotations are settled, then bodies are recomputed, and then
  -- the class is written and read.
  have settled := (file.model.rename relocator.table).settle_leaves.retains
  have kept := (settled.trans (ClassModel.retains_recomputed all)).mapTexts (.all spelled)
  have labels := kept.trans comes.retains
  rw [ClassModel.rename_eq] at labels
  exact labels.carries whole (ClassFile.storable_of_parse parsed keep)

section Constants

open Bytes

/-- A class below `old/Base` with two constant strings, as they are stored. -/
def constantsClass (first second : Bytes) : Bytes :=
  let stored (text : Bytes) := [1] ++ u2 text.length.toUInt16 ++ text
  let pool := poolText "app/Main" ++ [7] ++ u2 1 ++ poolText "old/Base" ++ [7] ++ u2 3 ++
    poolText "A" ++ poolText "B" ++ poolText "Ljava/lang/String;" ++ poolText "ConstantValue" ++
    stored first ++ [8] ++ u2 9 ++ stored second ++ [8] ++ u2 11
  let field (name value : UInt16) := u2 0x0019 ++ u2 name ++ u2 7 ++ u2 1 ++ u2 8 ++ u4 2 ++ u2 value
  u4 magic ++ u2 0 ++ u2 52 ++ u2 13 ++ pool ++ u2 0x0021 ++ u2 2 ++ u2 4 ++ u2 0 ++ u2 2 ++
    field 5 10 ++ field 6 12 ++ u2 0 ++ u2 0

/-- A lone high half with a package behind it, and a pair. -/
theorem loneClass_carried :
    let bytes := constantsClass [0xED, 0xA0, 0x80, 0x6F, 0x6C, 0x64] [0xED, 0xA0, 0xBD, 0xED, 0xB8, 0x80]
    let relocator := siblingRelocator .empty
    relocator.table.Whole ∧ ∃ file result, ClassFile.parse bytes = .ok file ∧
      (∀ entry ∈ file.pool.entries.toList, entry.pairsKeep = true) ∧
      (relocator.relocate none bytes .empty).1 = .ok result ∧ result.changed = true ∧
      ∃ before after, ClassFile.parseAs PoolEntry.byUnits bytes = .ok before ∧
        ClassFile.parseAs PoolEntry.byUnits result.bytes = .ok after ∧
        before.model.Carries relocator.table after.model ∧
        ∀ text, relocator.table.unitTable.Free text →
          Label.carried relocator.table (.string text) = .string text := by
  intro bytes relocator
  have whole : relocator.table.Whole := by decide
  have reads : (do
      let file ← ClassFile.parse bytes
      return file.pool.entries.toList.all PoolEntry.pairsKeep) = .ok true := by
    decide +kernel
  have runs : (do
      let result ← (relocator.relocate none bytes .empty).1
      return result.changed) = .ok true := by
    decide +kernel
  obtain ⟨file, parsed, reads⟩ := Except.bind_eq_ok.1 reads
  obtain ⟨result, done, runs⟩ := Except.bind_eq_ok.1 runs
  have keep := List.all_eq_true.1 (Except.ok.inj reads)
  have changed : result.changed = true := Except.ok.inj runs
  exact ⟨whole, file, result, parsed, keep, done, changed,
    relocator.relocate_carries whole none .empty parsed keep done changed⟩

/-- The pair `DBFE DC00` is the character that stands for the lone half `D800`. Where both are stored,
the string that is the pair comes out as the half. -/
theorem pairClass_not_carried :
    let bytes := constantsClass [0xED, 0xAF, 0xBE, 0xED, 0xB0, 0x80] [0xED, 0xA0, 0x80]
    let relocator := siblingRelocator .empty
    relocator.table.Whole ∧ ∃ file result before after, ClassFile.parse bytes = .ok file ∧
      (relocator.relocate none bytes .empty).1 = .ok result ∧ result.changed = true ∧
      ClassFile.parseAs PoolEntry.byUnits bytes = .ok before ∧
      ClassFile.parseAs PoolEntry.byUnits result.bytes = .ok after ∧
      before.model.fields.map Member.labels =
        [[.name "A", .string (spell [0xDBFE, 0xDC00])], [.name "B", .string (spell [0xD800])]] ∧
      after.model.fields.map Member.labels =
        [[.name "A", .string (spell [0xD800])], [.name "B", .string (spell [0xD800])]] ∧
      ¬before.model.Carries relocator.table after.model := by
  intro bytes relocator
  have reads : (do
      let _ ← ClassFile.parse bytes
      let before ← ClassFile.parseAs PoolEntry.byUnits bytes
      return before.model.fields.map Member.labels) =
        .ok [[.name "A", .string (spell [0xDBFE, 0xDC00])], [.name "B", .string (spell [0xD800])]] := by
    decide +kernel
  have runs : (do
      let result ← (relocator.relocate none bytes .empty).1
      return (result.changed, do
        let after ← ClassFile.parseAs PoolEntry.byUnits result.bytes
        return after.model.fields.map Member.labels)) = .ok (true,
          .ok [[.name "A", .string (spell [0xD800])], [.name "B", .string (spell [0xD800])]]) := by
    decide +kernel
  obtain ⟨file, parsed, reads⟩ := Except.bind_eq_ok.1 reads
  obtain ⟨before, old, reads⟩ := Except.bind_eq_ok.1 reads
  obtain ⟨result, done, runs⟩ := Except.bind_eq_ok.1 runs
  obtain ⟨changed, runs⟩ := Prod.mk.inj (Except.ok.inj runs)
  obtain ⟨after, new, runs⟩ := Except.bind_eq_ok.1 runs
  have first := Except.ok.inj reads
  have second := Except.ok.inj runs
  refine ⟨by decide, file, result, before, after, parsed, done, changed, old, new, first, second,
    fun carries => ?_⟩
  have each : List.Forall₂
      (fun labels results => results.Sublist (labels.map (Label.carried relocator.table)))
      (before.model.fields.map Member.labels) (after.model.fields.map Member.labels) := by
    rw [List.forall₂_map_left_iff, List.forall₂_map_right_iff]
    exact carries.fields.imp fun _ _ here => here.labels
  rw [first, second] at each
  cases each with
  | cons here _ =>
    revert here
    decide +kernel

end Constants

end ClassRenaming
