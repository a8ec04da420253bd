import ClassRenaming.Proofs.ProcessingOrder
import ClassRenaming.Proofs.RemainingSites
import ClassRenaming.Proofs.ThoroughTables
import ClassRenaming.Proofs.WrittenClasses

/-!
Relocating a class twice. If the table leaves no source behind and takes names to names, the second
time finds nothing to rename: not in what the first time renamed, nor in the names that it put into
frames, whatever classes went through the relocator before.
-/

namespace ClassRenaming

open ModifiedUtf8

/-! Sites that a table leaves alone. -/

/-- Whether a table leaves a site alone, also when its text was stored and read in between. -/
def Site.Stays (table : Renaming) (site : Site) : Prop :=
  ∀ spell, Respells spell → table.site? (site.mapTexts (.all (respell spell))) = none

theorem Site.exists_respell {back : String → String}
    (near : ∀ text, back text = text ∨ back text = recoded text) (site : Site) :
    ∃ spell, Respells spell ∧ site.mapTexts (.all back) = site.mapTexts (.all (respell spell)) := by
  have one (text : String) : ∃ spell, Respells spell ∧ back text = respell spell text := by
    rcases near text with same | joined
    · exact ⟨id, .id, same.trans (respell_id text).symm⟩
    · exact ⟨rejoin, respells_rejoin, joined⟩
  cases site with
  | binary text =>
    obtain ⟨spell, respells, same⟩ := one text
    exact ⟨spell, respells, congrArg Site.binary same⟩
  | dotted text =>
    obtain ⟨spell, respells, same⟩ := one text
    exact ⟨spell, respells, congrArg Site.dotted same⟩
  | signature kind text =>
    obtain ⟨spell, respells, same⟩ := one text
    exact ⟨spell, respells, congrArg (Site.signature kind) same⟩

section Sites

variable {table : Renaming}

theorem ClassFile.stays_written {bytes written : Bytes} {file : ClassFile} {model : ClassModel}
    (parsed : ClassFile.parse bytes = .ok file) (proper : model.Proper file.pool.depth)
    (stays : ∀ site ∈ model.sites, site.Stays table)
    (done : ClassFile.toBytes { file with model } = .ok written) :
    ∃ result, ClassFile.parse written = .ok result ∧
      ∀ site ∈ result.model.sites, table.site? site = none := by
  obtain ⟨result, back, read, near, comes, -⟩ := ClassFile.parse_of_written parsed proper done
  refine ⟨result, read, fun site member => ?_⟩
  have before := comes.sites_subset member
  rw [ClassModel.sites_mapTexts] at before
  obtain ⟨old, listed, rfl⟩ := List.mem_map.1 before
  obtain ⟨spell, respells, same⟩ := Site.exists_respell near old
  rw [same]
  exact stays old listed spell respells

variable (thorough : table.Thorough)

include thorough

theorem Site.stays_of_free {name : String} (free : table.Free name) : (Site.binary name).Stays table :=
  fun _ respells => Renaming.binary?_eq_none_iff.2 (thorough.free_respell respells free)

theorem ClassModel.stays_relocate (shape : TypeSignature.KeepsShape table.binary)
    (model : ClassModel) : ∀ site ∈ (model.relocate table).sites, site.Stays table := by
  intro site member
  have renamed := (ClassModel.settle_leaves _).sites_subset member
  rw [ClassModel.rename_eq, ClassModel.sites_mapTexts] at renamed
  obtain ⟨old, -, rfl⟩ := List.mem_map.1 renamed
  exact fun spell respells => thorough.site?_respell respells shape old

theorem ClassModel.named_relocate (model : ClassModel) :
    SitesNamed table.Free (model.relocate table).sites := by
  intro text member
  have renamed := (ClassModel.settle_leaves _).sites_subset member
  rw [ClassModel.rename_eq, ClassModel.sites_mapTexts] at renamed
  obtain ⟨old, -, same⟩ := List.mem_map.1 renamed
  cases old <;> cases same
  exact thorough.binary _

end Sites

theorem ClassHeader.parse_of_parse {bytes : Bytes} {file : ClassFile}
    (parsed : ClassFile.parse bytes = .ok file) : ∃ header, ClassHeader.parse bytes = .ok header := by
  obtain ⟨skeleton, all, -⟩ := Except.bind_eq_ok.1 parsed
  obtain ⟨pair, rest, header, -⟩ := Reader.bind_eq_ok.1 (Reader.all_eq_ok.1 all)
  refine ⟨pair.1, ?_⟩
  rw [ClassHeader.parse, header]
  rfl

namespace Relocator

variable {relocator : Relocator}

theorem keeps_relocate (thorough : relocator.table.Thorough)
    (shape : TypeSignature.KeepsShape relocator.table.binary) (hint : Option String)
    (bytes : Bytes) :
    Keeps relocator.hierarchy relocator.table.Free (relocator.relocate hint bytes) fun result =>
      result.changed = true → ∃ file, ClassFile.parse result.bytes = .ok file ∧
        ∀ site ∈ file.model.sites, relocator.table.site? site = none := by
  refine (keeps_changed thorough.closedNames hint bytes fun file _ =>
    ClassModel.named_relocate thorough file.model).mono fun result found changed => ?_
  obtain ⟨file, methods, parsed, all, done⟩ := found changed
  have proper := ((ClassFile.proper_of_parse parsed).2.relocate relocator.table).recomputed all
  refine ClassFile.stays_written parsed proper (fun site member => ?_) done
  rcases ClassModel.brings_recomputed all site member with old | ⟨name, rfl, free⟩
  · exact ClassModel.stays_relocate thorough shape file.model site old
  · exact Site.stays_of_free thorough free

/-- What a relocator remembers of types after some relocations, each with the name it was given. -/
def learned (relocator : Relocator) (steps : List (Option String × Bytes)) : MetadataCache :=
  steps.foldl (fun cache step => (relocator.relocate step.1 step.2 cache).2) .empty

theorem declares_empty (thorough : relocator.table.Thorough)
    (same : relocator.hierarchy.table = some relocator.table) :
    relocator.hierarchy.Declares relocator.table.Free .empty := by
  intro name
  have rename (name : String) : relocator.table.Free (relocator.hierarchy.rename name) := by
    rw [Hierarchy.rename, same]
    exact thorough.binary name
  have object := thorough.fixed objectName List.mem_cons_self
  change (relocator.hierarchy.load name).Named relocator.table.Free
  unfold Hierarchy.load
  split
  · next header found =>
    constructor
    case superclass =>
      intro super member
      simp only [Hierarchy.ofHeader] at member
      split at member
      · cases member
      · obtain ⟨old, -, rfl⟩ := Option.map_eq_some_iff.1 member
        exact rename old
    case interfaces =>
      intro interface member
      obtain ⟨old, -, rfl⟩ := List.mem_map.1 member
      exact rename old
  · constructor
    case superclass =>
      intro super member
      simp only [TypeMetadata.fallback] at member
      split at member
      · cases member
      · cases member
        exact object
    case interfaces =>
      intro interface member
      cases member

theorem declares_learned (thorough : relocator.table.Thorough)
    (shape : TypeSignature.KeepsShape relocator.table.binary)
    (same : relocator.hierarchy.table = some relocator.table)
    (steps : List (Option String × Bytes)) :
    relocator.hierarchy.Declares relocator.table.Free (relocator.learned steps) := by
  have run : ∀ cache, relocator.hierarchy.Declares relocator.table.Free cache →
      relocator.hierarchy.Declares relocator.table.Free
        (steps.foldl (fun cache step => (relocator.relocate step.1 step.2 cache).2) cache) := by
    induction steps with
    | nil => exact fun _ declares => declares
    | cons step rest ih =>
      intro cache declares
      exact ih _ (keeps_relocate thorough shape step.1 step.2 cache declares).2
  exact run .empty (declares_empty thorough same)

theorem skips_of_parse (relocator : Relocator) {bytes : Bytes} {file : ClassFile}
    (parsed : ClassFile.parse bytes = .ok file) (hint : Option String) :
    ∃ skip, relocator.skips hint bytes = .ok skip := by
  obtain ⟨header, read⟩ := ClassHeader.parse_of_parse parsed
  unfold skips
  split
  · cases hint with
    | some name => exact ⟨_, rfl⟩
    | none =>
      rw [read]
      exact ⟨_, rfl⟩
  · exact ⟨_, rfl⟩

theorem relocate_of_none {bytes : Bytes} {file : ClassFile}
    (parsed : ClassFile.parse bytes = .ok file)
    (unchanged : ∀ site ∈ file.model.sites, relocator.table.site? site = none) (hint : Option String)
    (cache : MetadataCache) : (relocator.relocate hint bytes cache).1 = .ok (.unchanged bytes) := by
  obtain ⟨skip, looked⟩ := relocator.skips_of_parse parsed hint
  have zero : file.model.siteCount relocator.table = 0 := by
    rw [ClassModel.siteCount, List.countP_eq_zero]
    intro site member
    rw [unchanged site member]
    exact Bool.false_ne_true
  unfold relocate relocateFile
  simp only [looked, parsed, zero, if_true]
  cases skip <;> rfl

/-- Relocating what a relocation gave finds nothing to rename. -/
theorem relocate_again (thorough : relocator.table.Thorough)
    (shape : TypeSignature.KeepsShape relocator.table.binary)
    (same : relocator.hierarchy.table = some relocator.table)
    (earlier : List (Option String × Bytes)) (hint : Option String) (bytes : Bytes)
    {result : Relocated}
    (done : (relocator.relocate hint bytes (relocator.learned earlier)).1 = .ok result)
    (changed : result.changed = true) :
    (∃ file, ClassFile.parse result.bytes = .ok file) ∧
      ∀ other cache, (relocator.relocate other result.bytes cache).1 =
        .ok (.unchanged result.bytes) := by
  have declares := declares_learned thorough shape same earlier
  have kept := (keeps_relocate thorough shape hint bytes _ declares).1 result done changed
  obtain ⟨file, parsed, unchanged⟩ := kept
  exact ⟨⟨file, parsed⟩, relocate_of_none parsed unchanged⟩

end Relocator

/-- Two classes that refer to a renamed namespace, one after the other. -/
theorem mainClass_relocated_again :
    let relocator := siblingRelocator .empty
    ∃ result, (relocator.relocate none mainClass (relocator.learned [(none, taskClass)])).1 =
        .ok result ∧ result.changed = true ∧
      (∃ file, ClassFile.parse result.bytes = .ok file) ∧
        ∀ hint cache, (relocator.relocate hint result.bytes cache).1 =
          .ok (.unchanged result.bytes) := by
  intro relocator
  have thorough : relocator.table.Thorough := by
    apply Renaming.Checked.thorough (by constructor <;> decide)
    all_goals decide
  have shape : TypeSignature.KeepsShape relocator.table.binary := by
    apply Renaming.keepsShape_binary (by decide)
    intro pair member
    rw [List.mem_singleton.1 member]
    have free : ("new".toList.all fun c => !endsSegment c) = true := by decide
    exact ⟨by decide, by simpa using free⟩
  have runs : (do
      let result ← (relocator.relocate none mainClass (relocator.learned [(none, taskClass)])).1
      return result.changed) = .ok true := by
    decide +kernel
  obtain ⟨result, done, changes⟩ := Except.bind_eq_ok.1 runs
  have changed : result.changed = true := Except.ok.inj changes
  exact ⟨result, done, changed,
    relocator.relocate_again thorough shape rfl [(none, taskClass)] none mainClass done changed⟩

/-! A target with a semicolon in it. -/

section Semicolon

open Bytes

/-- A class with a field of type `Lold<Tfoo;>;`. -/
def genericClass : Bytes :=
  let pool := poolText "app/Main" ++ [7] ++ u2 1 ++ poolText "java/lang/Object" ++ [7] ++ u2 3 ++
    poolText "f" ++ poolText "Ljava/lang/Object;" ++ poolText "Lold<Tfoo;>;" ++ poolText "Signature"
  let field := u2 0x0001 ++ u2 5 ++ u2 6 ++ u2 1 ++ u2 8 ++ u4 2 ++ u2 7
  u4 magic ++ u2 0 ++ u2 52 ++ u2 9 ++ pool ++ u2 0x0021 ++ u2 2 ++ u2 4 ++ u2 0 ++ u2 1 ++ field ++
    u2 0 ++ u2 0

def splittingRelocator : Relocator where
  table := ⟨[⟨"old", "n;w"⟩, ⟨"foo", "bar"⟩]⟩
  hierarchy := ⟨.empty, some ⟨[⟨"old", "n;w"⟩, ⟨"foo", "bar"⟩]⟩⟩
  options := .default

/-- The first time the type variable keeps its name. What it gives is no signature any more, so the
second time it is renamed as a plain text. -/
theorem genericClass_relocated_twice :
    splittingRelocator.table.Thorough ∧
      splittingRelocator.hierarchy.table = some splittingRelocator.table ∧
      ∃ result again, (splittingRelocator.relocate none genericClass .empty).1 = .ok result ∧
        result.changed = true ∧
          (splittingRelocator.relocate none result.bytes
            (splittingRelocator.learned [(none, genericClass)])).1 = .ok again ∧
            again.changed = true := by
  have thorough : splittingRelocator.table.Thorough := by
    apply Renaming.Checked.thorough (by constructor <;> decide)
    all_goals decide
  refine ⟨thorough, rfl, ?_⟩
  have runs : (do
      let result ← (splittingRelocator.relocate none genericClass .empty).1
      let again ← (splittingRelocator.relocate none result.bytes
        (splittingRelocator.learned [(none, genericClass)])).1
      return (result.changed, again.changed)) = .ok (true, true) := by
    decide +kernel
  obtain ⟨result, done, runs⟩ := Except.bind_eq_ok.1 runs
  obtain ⟨again, second, changes⟩ := Except.bind_eq_ok.1 runs
  obtain ⟨changed, still⟩ := Prod.mk.inj (Except.ok.inj changes)
  exact ⟨result, again, done, changed, second, still⟩

end Semicolon

end ClassRenaming
