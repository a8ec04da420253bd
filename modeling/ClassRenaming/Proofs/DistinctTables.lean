import Mathlib.Data.List.Nodup
import ClassRenaming.Proofs.ProcessingOrder
import ClassRenaming.Proofs.UntouchedClasses
import ClassRenaming.Proofs.WrittenClasses

/-!
The tables of a class in which the format wants each entry only once. Renaming can make two entries
the same. Of interfaces the first then stays for both. Fields, methods and inner classes are not
looked at again: their tables have an entry twice as soon as the renaming takes two entries to one.
-/

namespace ClassRenaming

def Member.key (member : Member) : String × String := (member.name, member.descriptor)

def Attribute.innerNames : Attribute → List String
  | .innerClasses classes => classes.map InnerClass.inner
  | _ => []

structure Tables where
  interfaces : List String
  /-- Names and descriptors. -/
  fields : List (String × String)
  methods : List (String × String)
  inner : List String
  deriving DecidableEq

def ClassModel.tables (model : ClassModel) : Tables where
  interfaces := model.interfaces
  fields := model.fields.map Member.key
  methods := model.methods.map Member.key
  inner := model.attributes.flatMap Attribute.innerNames

namespace Tables

structure Distinct (tables : Tables) : Prop where
  interfaces : tables.interfaces.Nodup
  fields : tables.fields.Nodup
  methods : tables.methods.Nodup
  inner : tables.inner.Nodup

instance (tables : Tables) : Decidable tables.Distinct :=
  decidable_of_iff (tables.interfaces.Nodup ∧ tables.fields.Nodup ∧ tables.methods.Nodup ∧
    tables.inner.Nodup) ⟨fun ⟨a, b, c, d⟩ => ⟨a, b, c, d⟩, fun ⟨a, b, c, d⟩ => ⟨a, b, c, d⟩⟩

def mapTexts (m : TextMap) (tables : Tables) : Tables where
  interfaces := tables.interfaces.map m.binary
  fields := tables.fields.map (Prod.map m.name m.binary)
  methods := tables.methods.map (Prod.map m.name m.binary)
  inner := tables.inner.map m.binary

def settle (tables : Tables) : Tables :=
  { tables with interfaces := tables.interfaces.eraseDups }

def texts (tables : Tables) : List String :=
  tables.interfaces ++ (tables.fields ++ tables.methods).flatMap (fun (name, text) => [name, text]) ++
    tables.inner

end Tables

/-- Whether no two fields or methods of one name have their descriptors, and no two inner classes
their names, renamed to one text. -/
structure Renaming.KeepsApart (table : Renaming) (tables : Tables) : Prop where
  fields : ∀ first ∈ tables.fields, ∀ second ∈ tables.fields, first.1 = second.1 →
    table.binary first.2 = table.binary second.2 → first.2 = second.2
  methods : ∀ first ∈ tables.methods, ∀ second ∈ tables.methods, first.1 = second.1 →
    table.binary first.2 = table.binary second.2 → first.2 = second.2
  inner : ∀ first ∈ tables.inner, ∀ second ∈ tables.inner,
    table.binary first = table.binary second → first = second

/-! Tables that are renamed. -/

section Renamed

variable {table : Renaming}

theorem nodup_rename_members_iff (table : Renaming) {members : List (String × String)}
    (distinct : members.Nodup) :
    (members.map (Prod.map id table.binary)).Nodup ↔
      ∀ first ∈ members, ∀ second ∈ members, first.1 = second.1 →
        table.binary first.2 = table.binary second.2 → first.2 = second.2 := by
  rw [List.nodup_map_iff_inj_on distinct]
  refine forall₂_congr fun first _ => forall₂_congr fun second _ => ?_
  rw [Prod.ext_iff, Prod.ext_iff]
  constructor
  · exact fun apart name text => (apart ⟨name, text⟩).2
  · exact fun apart ⟨name, text⟩ => ⟨name, apart name text⟩

theorem nodup_rename_iff (table : Renaming) {names : List String} (distinct : names.Nodup) :
    (names.map table.binary).Nodup ↔ ∀ first ∈ names, ∀ second ∈ names,
      table.binary first = table.binary second → first = second :=
  List.nodup_map_iff_inj_on distinct

theorem nodup_eraseDups {α : Type} [BEq α] [LawfulBEq α] : ∀ items : List α, items.eraseDups.Nodup
  | [] => List.nodup_nil
  | first :: rest => by
    rw [List.eraseDups_cons, List.nodup_cons]
    refine ⟨fun again => ?_, nodup_eraseDups _⟩
    have found := List.mem_eraseDups.1 again
    simp at found
termination_by items => items.length
decreasing_by exact Nat.lt_succ_of_le (List.length_filter_le _ _)

theorem Tables.distinct_renamed_iff {tables : Tables} (distinct : tables.Distinct) :
    (tables.mapTexts (.ofTable table)).settle.Distinct ↔ table.KeepsApart tables := by
  have fields := nodup_rename_members_iff table distinct.fields
  have methods := nodup_rename_members_iff table distinct.methods
  have inner := nodup_rename_iff table distinct.inner
  constructor
  · exact fun apart => ⟨fields.1 apart.fields, methods.1 apart.methods, inner.1 apart.inner⟩
  · exact fun apart =>
      ⟨nodup_eraseDups _, fields.2 apart.fields, methods.2 apart.methods, inner.2 apart.inner⟩

end Renamed

/-! What each step of relocating makes of the tables. -/

section Steps

variable {model result : ClassModel}

theorem Attribute.innerNames_mapTexts (m : TextMap) (kind : Signature.Kind) (item : Attribute) :
    (item.mapTexts m kind).innerNames = item.innerNames.map m.binary := by
  cases item with
  | innerClasses classes =>
    simp only [Attribute.mapTexts, Attribute.innerNames, List.map_map]
    rfl
  | constantValue constant => cases constant <;> rfl
  | _ => rfl

theorem ClassModel.tables_mapTexts (m : TextMap) (model : ClassModel) :
    (model.mapTexts m).tables = model.tables.mapTexts m := by
  have members (kind : Signature.Kind) (members : List Member) :
      (members.map (Member.mapTexts m kind)).map Member.key =
        (members.map Member.key).map (Prod.map m.name m.binary) := by
    rw [List.map_map, List.map_map]
    rfl
  have inner : (model.mapTexts m).attributes.flatMap Attribute.innerNames =
      (model.attributes.flatMap Attribute.innerNames).map m.binary := by
    simp only [ClassModel.mapTexts, Attribute.mapTextsList_eq_map, List.flatMap_map, List.map_flatMap,
      Attribute.innerNames_mapTexts]
  rw [ClassModel.tables, inner]
  simp only [ClassModel.mapTexts, members]
  rfl

theorem Attribute.Leaves.innerNames {item : Attribute} {left : Option Attribute}
    (leaves : item.Leaves left) : left.toList.flatMap Attribute.innerNames = item.innerNames := by
  cases item with
  | exceptions names =>
    obtain ⟨kept, rfl, -⟩ := leaves
    rfl
  | annotations visibility entries | typeAnnotations visibility entries =>
    rcases leaves with rfl | ⟨kept, rfl, -⟩ <;> rfl
  | parameterAnnotations visibility parameters =>
    obtain ⟨kept, rfl, -⟩ := leaves
    rfl
  | record components =>
    obtain ⟨kept, rfl, -⟩ := leaves
    rfl
  | code body =>
    obtain ⟨kept, rfl, -⟩ := leaves
    rfl
  | _ =>
    rw [show left = some _ from leaves]
    exact List.flatMap_singleton _ _

theorem Attribute.AllLeave.innerNames : ∀ {attributes left : List Attribute},
    Attribute.AllLeave attributes left →
      left.flatMap Attribute.innerNames = attributes.flatMap Attribute.innerNames
  | [], _, leaves => by rw [show _ = [] from leaves]
  | first :: rest, _, leaves => by
    obtain ⟨one, others, rfl, here, there⟩ := leaves
    rw [List.flatMap_append, here.innerNames, there.innerNames, List.flatMap_cons]

theorem map_key_eq {related : Member → Member → Prop} {members results : List Member}
    (all : List.Forall₂ related members results)
    (same : ∀ member result, related member result → result.key = member.key) :
    results.map Member.key = members.map Member.key := by
  induction all with
  | nil => rfl
  | cons here _ ih => rw [List.map_cons, List.map_cons, same _ _ here, ih]

theorem ClassModel.tables_settle (model : ClassModel) : model.settle.tables = model.tables.settle := by
  have leaves := model.settle_leaves
  have fields : model.settle.fields.map Member.key = model.fields.map Member.key :=
    map_key_eq leaves.fields fun _ _ here => Prod.ext here.name here.descriptor
  have methods : model.settle.methods.map Member.key = model.methods.map Member.key :=
    map_key_eq leaves.methods fun _ _ here => Prod.ext here.name here.descriptor
  rw [ClassModel.tables, fields, methods, leaves.attributes.innerNames]
  rfl

theorem ClassModel.tables_recomputed {good : String → Prop} {methods : List Member}
    (all : List.Forall₂ (Member.Recomputed good .method) model.methods methods) :
    ({ model with methods } : ClassModel).tables = model.tables := by
  have same : methods.map Member.key = model.methods.map Member.key :=
    map_key_eq all fun _ _ here => Prod.ext here.name here.descriptor
  exact congrArg (fun methods => { model.tables with methods }) same

theorem Attribute.ComesBack.innerNames {pool : ConstantPool} {item result : Attribute}
    (comes : item.ComesBack pool result) : result.innerNames = item.innerNames := by
  cases item with
  | record components =>
    obtain ⟨others, rfl, -⟩ := comes
    rfl
  | code body =>
    obtain ⟨other, rfl, -⟩ := comes
    rfl
  | constantValue constant =>
    rw [show result = _ from comes]
    rfl
  | _ => rw [show result = _ from comes]

theorem Attribute.AllComeBack.innerNames {pool : ConstantPool} :
    ∀ {attributes results : List Attribute}, Attribute.AllComeBack pool attributes results →
      results.flatMap Attribute.innerNames = attributes.flatMap Attribute.innerNames
  | [], _, comes => by rw [show _ = [] from comes]
  | first :: rest, _, comes => by
    obtain ⟨other, later, rfl, here, there⟩ := comes
    rw [List.flatMap_cons, List.flatMap_cons, here.innerNames, there.innerNames]

theorem ClassModel.ComesBack.tables {pool : ConstantPool} (comes : model.ComesBack pool result) :
    result.tables = model.tables := by
  have fields : result.fields.map Member.key = model.fields.map Member.key :=
    map_key_eq comes.fields fun _ _ here => Prod.ext here.name here.descriptor
  have methods : result.methods.map Member.key = model.methods.map Member.key :=
    map_key_eq comes.methods fun _ _ here => Prod.ext here.name here.descriptor
  rw [ClassModel.tables, fields, methods, comes.attributes.innerNames, comes.header]
  rfl

theorem Tables.mapTexts_eq_self {back : String → String} {tables : Tables}
    (fixes : Fixes back tables.texts) : tables.mapTexts (.all back) = tables := by
  have members {entries : List (String × String)}
      (inside : ∀ entry ∈ entries, back entry.1 = entry.1 ∧ back entry.2 = entry.2) :
      entries.map (Prod.map back back) = entries :=
    (List.map_congr_left fun entry listed => Prod.ext (inside entry listed).1 (inside entry listed).2).trans
      (List.map_id _)
  have inside : ∀ entry ∈ tables.fields ++ tables.methods,
      back entry.1 = entry.1 ∧ back entry.2 = entry.2 := by
    intro entry listed
    have both (text : String) (part : text ∈ [entry.1, entry.2]) : back text = text :=
      fixes.left.right text (List.mem_flatMap.2 ⟨entry, listed, part⟩)
    exact ⟨both _ (by simp), both _ (by simp)⟩
  rw [List.forall_mem_append] at inside
  simp only [mapTexts, TextMap.all, fixes.left.left.map_eq_self, members inside.1, members inside.2,
    fixes.right.map_eq_self]

end Steps

namespace Relocator

variable (relocator : Relocator) (hint : Option String) (cache : MetadataCache) {bytes : Bytes}
  {file : ClassFile} {result : Relocated}

include relocator hint cache

theorem bytes_of_unchanged (done : (relocator.relocate hint bytes cache).1 = .ok result)
    (same : result.changed = false) : result.bytes = bytes := by
  have anything : relocator.hierarchy.Declares (fun _ => True) cache :=
    fun _ => ⟨fun _ _ => trivial, fun _ _ => trivial⟩
  have kept : Keeps relocator.hierarchy (fun _ => True) (relocator.relocate hint bytes)
      fun result => result.changed = false → result.bytes = bytes := by
    unfold relocate
    dsimp only
    split
    · exact .throw
    · exact .pure fun _ => rfl
    · split
      · exact .throw
      · next file parsed =>
        by_cases untouched : file.model.siteCount relocator.table = 0
        · rw [relocateFile, if_pos untouched]
          exact .pure fun _ => rfl
        · refine Keeps.mono (keeps_relocateFile _ bytes untouched) fun result found unchanged => ?_
          rw [found.1] at unchanged
          cases unchanged
  exact (kept cache anything).1 result done same

theorem relocate_tables (parsed : ClassFile.parse bytes = .ok file)
    (storable : AllStorable (file.model.tables.mapTexts (.ofTable relocator.table)).settle.texts)
    (done : (relocator.relocate hint bytes cache).1 = .ok result) (changed : result.changed = true) :
    ∃ after, ClassFile.parse result.bytes = .ok after ∧
      after.model.tables = (file.model.tables.mapTexts (.ofTable relocator.table)).settle := by
  have anything : relocator.hierarchy.Declares (fun _ => True) cache :=
    fun _ => ⟨fun _ _ => trivial, fun _ _ => trivial⟩
  have made := (keeps_changed .trivial hint bytes fun _ _ _ _ => trivial) cache anything
  obtain ⟨file', methods, parsed', all, written⟩ := made.1 result done changed
  obtain rfl : file = file' := Except.ok.inj (parsed.symm.trans parsed')
  have proper := ((ClassFile.proper_of_parse parsed).2.relocate relocator.table).recomputed all
  obtain ⟨after, back, read, near, comes, -⟩ := ClassFile.parse_of_written parsed proper written
  refine ⟨after, read, ?_⟩
  rw [comes.tables, ClassModel.tables_mapTexts, ClassModel.tables_recomputed all,
    ClassModel.relocate, ClassModel.tables_settle, ClassModel.rename_eq, ClassModel.tables_mapTexts]
  exact Tables.mapTexts_eq_self (fixes_of_storable near storable)

/-- What a relocation gives has distinct interfaces. Its other tables are distinct, where they were
before, if and only if the class is unchanged or the renaming keeps their entries apart. -/
theorem relocate_distinct_iff (parsed : ClassFile.parse bytes = .ok file)
    (distinct : file.model.tables.Distinct)
    (storable : AllStorable (file.model.tables.mapTexts (.ofTable relocator.table)).settle.texts)
    (done : (relocator.relocate hint bytes cache).1 = .ok result) :
    ∃ after, ClassFile.parse result.bytes = .ok after ∧ after.model.interfaces.Nodup ∧
      (after.model.tables.Distinct ↔
        result.changed = false ∨ relocator.table.KeepsApart file.model.tables) := by
  cases changed : result.changed with
  | false =>
    refine ⟨file, ?_, distinct.interfaces, iff_of_true distinct (.inl rfl)⟩
    rwa [relocator.bytes_of_unchanged hint cache done changed]
  | true =>
    obtain ⟨after, read, tables⟩ := relocator.relocate_tables hint cache parsed storable done changed
    refine ⟨after, read, ?_, ?_⟩
    · rw [show after.model.interfaces = after.model.tables.interfaces from rfl, tables]
      exact nodup_eraseDups _
    · rw [tables, Tables.distinct_renamed_iff distinct]
      simp

end Relocator

/-! Two fields, two methods and two inner classes, of one name each. -/

section Twins

open Bytes

/-- A class with the interfaces `old/I` and `new/I`, fields `x` and abstract methods `m` of two types,
and two inner classes. -/
def twinClass (first second : String) : Bytes :=
  let pool := poolText "app/Main" ++ [7] ++ u2 1 ++ poolText "java/lang/Object" ++ [7] ++ u2 3 ++
    poolText "old/I" ++ [7] ++ u2 5 ++ poolText "new/I" ++ [7] ++ u2 7 ++ poolText "x" ++
    poolText ("L" ++ first ++ ";") ++ poolText ("L" ++ second ++ ";") ++ poolText "m" ++
    poolText ("(L" ++ first ++ ";)V") ++ poolText ("(L" ++ second ++ ";)V") ++
    poolText "InnerClasses" ++ poolText first ++ [7] ++ u2 16 ++ poolText second ++ [7] ++ u2 18
  let member (access name descriptor : UInt16) := u2 access ++ u2 name ++ u2 descriptor ++ u2 0
  let inner (entry : UInt16) := u2 entry ++ u2 0 ++ u2 0 ++ u2 0x0009
  u4 magic ++ u2 0 ++ u2 52 ++ u2 20 ++ pool ++ u2 0x0421 ++ u2 2 ++ u2 4 ++ u2 2 ++ u2 6 ++ u2 8 ++
    u2 2 ++ member 0x0001 9 10 ++ member 0x0001 9 11 ++
    u2 2 ++ member 0x0401 12 13 ++ member 0x0401 12 14 ++
    u2 1 ++ u2 15 ++ u4 18 ++ u2 2 ++ inner 17 ++ inner 19

/-- Names of one package stay apart, and the two interfaces become one. -/
theorem twinClass_stays_distinct :
    let bytes := twinClass "old/A" "old/B"
    let relocator := siblingRelocator .empty
    ∃ file result after, ClassFile.parse bytes = .ok file ∧ file.model.tables.Distinct ∧
      (relocator.relocate none bytes .empty).1 = .ok result ∧ result.changed = true ∧
      ClassFile.parse result.bytes = .ok after ∧ after.model.interfaces.Nodup ∧
      after.model.tables.Distinct := by
  intro bytes relocator
  have reads : (do
      let file ← ClassFile.parse bytes
      return file.model.tables) = .ok ⟨["old/I", "new/I"], [("x", "Lold/A;"), ("x", "Lold/B;")],
        [("m", "(Lold/A;)V"), ("m", "(Lold/B;)V")], ["old/A", "old/B"]⟩ := by
    decide +kernel
  have runs : (do
      let result ← (relocator.relocate none bytes .empty).1
      return result.changed) = .ok true := by
    decide +kernel
  obtain ⟨file, parsed, reads⟩ := Except.bind_eq_ok.1 reads
  obtain ⟨result, done, runs⟩ := Except.bind_eq_ok.1 runs
  have changed : result.changed = true := Except.ok.inj runs
  have tables := Except.ok.inj reads
  have distinct : file.model.tables.Distinct := by
    rw [tables]
    decide
  have storable :
      AllStorable (file.model.tables.mapTexts (.ofTable relocator.table)).settle.texts := by
    rw [tables]
    decide +kernel
  obtain ⟨after, read, interfaces, others⟩ :=
    relocator.relocate_distinct_iff none .empty parsed distinct storable done
  have apart : relocator.table.KeepsApart file.model.tables := by
    rw [tables]
    constructor <;> decide
  exact ⟨file, result, after, parsed, distinct, done, changed, read, interfaces,
    others.2 (.inr apart)⟩

/-- With the other class in the package that `old` is renamed to, all three tables have an entry
twice. -/
theorem twinClass_falls_together :
    let bytes := twinClass "old/A" "new/A"
    let relocator := siblingRelocator .empty
    ∃ file result after, ClassFile.parse bytes = .ok file ∧ file.model.tables.Distinct ∧
      (relocator.relocate none bytes .empty).1 = .ok result ∧ result.changed = true ∧
      ClassFile.parse result.bytes = .ok after ∧
      after.model.tables = ⟨["new/I"], [("x", "Lnew/A;"), ("x", "Lnew/A;")],
        [("m", "(Lnew/A;)V"), ("m", "(Lnew/A;)V")], ["new/A", "new/A"]⟩ ∧
      ¬ after.model.tables.Distinct := by
  intro bytes relocator
  have reads : (do
      let file ← ClassFile.parse bytes
      return decide file.model.tables.Distinct) = .ok true := by
    decide +kernel
  have runs : (do
      let result ← (relocator.relocate none bytes .empty).1
      return (result.changed, do
        let after ← ClassFile.parse result.bytes
        return after.model.tables)) = .ok (true, .ok ⟨["new/I"], [("x", "Lnew/A;"), ("x", "Lnew/A;")],
          [("m", "(Lnew/A;)V"), ("m", "(Lnew/A;)V")], ["new/A", "new/A"]⟩) := by
    decide +kernel
  obtain ⟨file, parsed, reads⟩ := Except.bind_eq_ok.1 reads
  obtain ⟨result, done, runs⟩ := Except.bind_eq_ok.1 runs
  obtain ⟨changed, runs⟩ := Prod.mk.inj (Except.ok.inj runs)
  obtain ⟨after, read, runs⟩ := Except.bind_eq_ok.1 runs
  have tables := Except.ok.inj runs
  refine ⟨file, result, after, parsed, of_decide_eq_true (Except.ok.inj reads), done, changed, read,
    tables, ?_⟩
  rw [tables]
  decide

end Twins

end ClassRenaming
