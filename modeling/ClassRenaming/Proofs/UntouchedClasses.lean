import ClassRenaming.Proofs.RelocatedAgain
import ClassRenaming.Proofs.RenamedSites

/-!
Which classes keep their bytes. A site counts when a pair finds its source in it, even if the pairs
together give the text back; a signature counts only when it is printed differently in the end,
unless it is outside the grammar and stands as a plain text. A class in which nothing counts comes
back as it is, without a look at the hierarchy, and any other class is changed or refused.
-/

namespace ClassRenaming

def Meets (pairs : List (List Char × List Char)) (text : List Char) : Prop :=
  ∃ before pair after, pairs = before ++ pair :: after ∧
    pair.1 <:+: (substitute? before text).getD text

theorem substitute?_eq_none_iff_not_meets {pairs : List (List Char × List Char)}
    {text : List Char} : substitute? pairs text = none ↔ ¬ Meets pairs text := by
  rw [substitute?_eq_none_iff]
  constructor
  · rintro absent ⟨before, pair, after, rfl, occurs⟩
    rw [List.forall_mem_append, List.forall_mem_cons] at absent
    rw [substitute?_eq_none_iff.2 absent.1, Option.getD_none] at occurs
    exact absent.2.1 occurs
  · intro unmet pair member occurs
    induction pairs with
    | nil => cases member
    | cons first rest ih =>
      by_cases here : first.1 <:+: text
      · exact unmet ⟨[], first, rest, rfl, here⟩
      · rcases List.mem_cons.1 member with rfl | later
        · exact here occurs
        · refine ih ?_ later
          rintro ⟨before, other, after, rfl, found⟩
          refine unmet ⟨first :: before, other, after, rfl, ?_⟩
          have absent : occursIn first.1 text = false := by
            rwa [← Bool.not_eq_true, occursIn_iff]
          rw [substitute?, absent]
          exact found

namespace Renaming

variable (table : Renaming)

def Meets (text : String) : Prop :=
  ClassRenaming.Meets (table.pairs.map NamePair.chars) text.toList

def MeetsDotted (text : String) : Prop :=
  ClassRenaming.Meets (table.pairs.map NamePair.dottedChars) text.toList

/-- Whether a table leaves a site as it is: it meets no source there, or renames the tree of a
signature to one that is printed the same. -/
def Spares : Site → Prop
  | .binary text => ¬ table.Meets text
  | .dotted text => ¬ table.MeetsDotted text
  | .signature kind text =>
    table.signature kind text = text ∧ (Signature.HasTree kind text ∨ ¬ table.Meets text)

variable {table} {text : String}

theorem binary?_eq_none_iff_not_meets : table.binary? text = none ↔ ¬ table.Meets text := by
  rw [binary?, Option.map_eq_none_iff, substitute?_eq_none_iff_not_meets]
  rfl

theorem dotted?_eq_none_iff_not_meets : table.dotted? text = none ↔ ¬ table.MeetsDotted text := by
  rw [dotted?, Option.map_eq_none_iff, substitute?_eq_none_iff_not_meets]
  rfl

theorem hasTree_of_mapped? {kind : Signature.Kind} {printed : String}
    (done : Signature.mapped? table.binary text kind = some printed) :
    Signature.HasTree kind text := by
  cases kind with
  | type =>
    obtain ⟨signature, parsed, -⟩ := Option.map_eq_some_iff.1 done
    obtain ⟨chars, proper⟩ := Signature.class?_eq_some_iff.1 parsed
    refine ⟨signature, proper, String.toList_inj.1 ?_⟩
    rw [chars, ClassSignature.render, String.toList_ofList]
  | method =>
    obtain ⟨signature, parsed, -⟩ := Option.map_eq_some_iff.1 done
    obtain ⟨chars, proper⟩ := Signature.method?_eq_some_iff.1 parsed
    refine ⟨signature, proper, String.toList_inj.1 ?_⟩
    rw [chars, MethodSignature.render, String.toList_ofList]
  | field =>
    obtain ⟨type, parsed, -⟩ := Option.map_eq_some_iff.1 done
    obtain ⟨chars, proper⟩ := Signature.field?_eq_some_iff.1 parsed
    refine ⟨type, proper, String.toList_inj.1 ?_⟩
    rw [chars, TypeSignature.render, String.toList_ofList]

theorem site?_eq_none_iff {site : Site} : table.site? site = none ↔ table.Spares site := by
  cases site with
  | binary text => exact binary?_eq_none_iff_not_meets
  | dotted text => exact dotted?_eq_none_iff_not_meets
  | signature kind text =>
    rw [Spares, ← binary?_eq_none_iff_not_meets]
    cases found : table.binary? text with
    | none => simp [site?, signature, found]
    | some plain =>
      cases done : Signature.mapped? table.binary text kind with
      | none =>
        have outside := not_hasTree_of_mapped? done
        simp [site?, found, done, outside]
      | some printed =>
        have inside := hasTree_of_mapped? done
        by_cases same : printed = text
        · simp [site?, signature, found, done, same, inside]
        · simp [site?, signature, found, done, same]

end Renaming

theorem ClassModel.siteCount_eq_zero_iff {table : Renaming} {model : ClassModel} :
    model.siteCount table = 0 ↔ ∀ site ∈ model.sites, table.Spares site := by
  rw [ClassModel.siteCount, List.countP_eq_zero]
  refine forall₂_congr fun site _ => ?_
  rw [Option.not_isSome_iff_eq_none, Renaming.site?_eq_none_iff]

namespace Relocator

variable {relocator : Relocator}

theorem keeps_relocateFile (name : String) (bytes : Bytes) {file : ClassFile}
    (sited : file.model.siteCount relocator.table ≠ 0) :
    Keeps relocator.hierarchy (fun _ => True) (relocator.relocateFile name bytes file)
      fun result => result.changed = true ∧
        result.sites = file.model.siteCount relocator.table := by
  unfold relocateFile
  dsimp only
  rw [if_neg sited]
  split
  · have named : SitesNamed (fun _ => True) (file.model.relocate relocator.table).sites :=
      fun _ _ => trivial
    apply Keeps.bind (keeps_recomputeFrames .trivial name named)
    intro model _
    split
    · exact .pure ⟨rfl, rfl⟩
    · exact .throw
  · rw [pure_bind]
    split
    · exact .pure ⟨rfl, rfl⟩
    · exact .throw

/-- A class that is not left alone for its name keeps its bytes if and only if the table spares all
of its sites. Then nothing is recomputed or written; and otherwise it is refused or changed. -/
theorem relocate_unchanged_iff (relocator : Relocator) (hint : Option String)
    (cache : MetadataCache) {bytes : Bytes} {file : ClassFile}
    (parsed : ClassFile.parse bytes = .ok file) (looked : relocator.skips hint bytes = .ok false) :
    ((relocator.relocate hint bytes cache).1 = .ok (.unchanged bytes) ↔
        ∀ site ∈ file.model.sites, relocator.table.Spares site) ∧
      ((∀ site ∈ file.model.sites, relocator.table.Spares site) →
        relocator.relocate hint bytes cache = (.ok (.unchanged bytes), cache)) ∧
      (¬ (∀ site ∈ file.model.sites, relocator.table.Spares site) →
        ∀ result, (relocator.relocate hint bytes cache).1 = .ok result →
          result.changed = true ∧ 0 < result.sites) := by
  rw [← ClassModel.siteCount_eq_zero_iff]
  have run : relocator.relocate hint bytes =
      relocator.relocateFile (hint.getD file.model.name) bytes file := by
    unfold relocate
    rw [looked, parsed]
  have same (zero : file.model.siteCount relocator.table = 0) :
      relocator.relocate hint bytes cache = (.ok (.unchanged bytes), cache) := by
    rw [run, relocateFile, if_pos zero]
    rfl
  have other (sited : file.model.siteCount relocator.table ≠ 0) (result : Relocated)
      (done : (relocator.relocate hint bytes cache).1 = .ok result) :
      result.changed = true ∧ 0 < result.sites := by
    rw [run] at done
    have anything : relocator.hierarchy.Declares (fun _ => True) cache :=
      fun _ => ⟨fun _ _ => trivial, fun _ _ => trivial⟩
    obtain ⟨changed, counted⟩ :=
      (keeps_relocateFile (hint.getD file.model.name) bytes sited cache anything).1 result done
    exact ⟨changed, by omega⟩
  refine ⟨⟨fun unchanged => ?_, fun zero => by rw [same zero]⟩, same, other⟩
  by_contra some
  have changed := (other some _ unchanged).1
  cases changed

end Relocator

/-! Two pairs of which the second takes back what the first does to `lib/old/util`. -/

section Signed

open Bytes

def circlingRelocator : Relocator where
  table := ⟨[⟨"old/util", "new/util"⟩, ⟨"lib/new", "lib/old"⟩]⟩
  hierarchy := ⟨.empty, some ⟨[⟨"old/util", "new/util"⟩, ⟨"lib/new", "lib/old"⟩]⟩⟩
  options := .default

def signedClass (signature : String) : Bytes :=
  let pool := poolText "app/Main" ++ [7] ++ u2 1 ++ poolText "java/lang/Object" ++ [7] ++ u2 3 ++
    poolText "Signature" ++ poolText signature
  u4 magic ++ u2 0 ++ u2 52 ++ u2 7 ++ pool ++ u2 0x0021 ++ u2 2 ++ u2 4 ++ u2 0 ++ u2 0 ++ u2 0 ++
    u2 1 ++ u2 5 ++ u4 2 ++ u2 6

/-- The name in the signature is renamed and renamed back, and the class keeps its bytes. -/
theorem signedClass_unchanged :
    let bytes := signedClass "Llib/old/util;"
    circlingRelocator.table.Meets "Llib/old/util;" ∧ ∃ file, ClassFile.parse bytes = .ok file ∧
      circlingRelocator.skips none bytes = .ok false ∧
      (∀ site ∈ file.model.sites, circlingRelocator.table.Spares site) ∧
      circlingRelocator.relocate none bytes .empty = (.ok (.unchanged bytes), .empty) := by
  intro bytes
  have met : circlingRelocator.table.Meets "Llib/old/util;" := by
    by_contra unmet
    have absent := Renaming.binary?_eq_none_iff_not_meets.2 unmet
    revert absent
    decide
  have reads : (do
      let file ← ClassFile.parse bytes
      let looked ← circlingRelocator.skips none bytes
      return (looked, file.model.siteCount circlingRelocator.table)) = .ok (false, 0) := by
    decide +kernel
  obtain ⟨file, parsed, reads⟩ := Except.bind_eq_ok.1 reads
  obtain ⟨looked, found, reads⟩ := Except.bind_eq_ok.1 reads
  obtain ⟨rfl, zero⟩ := Prod.mk.inj (Except.ok.inj reads)
  have spared := ClassModel.siteCount_eq_zero_iff.1 zero
  obtain ⟨-, same, -⟩ := circlingRelocator.relocate_unchanged_iff Option.none .empty parsed found
  exact ⟨met, file, parsed, found, spared, same spared⟩

/-- A text that is no signature comes back as it was as well. But there each pair counts that finds
its source, so the class is written anew. -/
theorem signedClass_changed :
    let bytes := signedClass "lib/old/util"
    ∃ file result, ClassFile.parse bytes = .ok file ∧
      circlingRelocator.skips none bytes = .ok false ∧
      file.model.sites =
        [.binary "app/Main", .binary "java/lang/Object", .signature .type "lib/old/util"] ∧
      ¬ circlingRelocator.table.Meets "app/Main" ∧
      ¬ circlingRelocator.table.Meets "java/lang/Object" ∧
      circlingRelocator.table.signature .type "lib/old/util" = "lib/old/util" ∧
      (circlingRelocator.relocate none bytes .empty).1 = .ok result ∧
      result.changed = true ∧ result.sites = 1 := by
  intro bytes
  have reads : (do
      let file ← ClassFile.parse bytes
      let looked ← circlingRelocator.skips none bytes
      return (looked, file.model.sites)) = .ok (false,
        [.binary "app/Main", .binary "java/lang/Object", .signature .type "lib/old/util"]) := by
    decide +kernel
  have runs : (do
      let result ← (circlingRelocator.relocate none bytes .empty).1
      return (result.changed, result.sites)) = .ok (true, 1) := by
    decide +kernel
  obtain ⟨file, parsed, reads⟩ := Except.bind_eq_ok.1 reads
  obtain ⟨looked, found, reads⟩ := Except.bind_eq_ok.1 reads
  obtain ⟨rfl, sites⟩ := Prod.mk.inj (Except.ok.inj reads)
  obtain ⟨result, done, runs⟩ := Except.bind_eq_ok.1 runs
  obtain ⟨changed, counted⟩ := Prod.mk.inj (Except.ok.inj runs)
  refine ⟨file, result, parsed, found, sites, ?_, ?_, by decide, done, changed, counted⟩
  · exact Renaming.binary?_eq_none_iff_not_meets.1 (by decide)
  · exact Renaming.binary?_eq_none_iff_not_meets.1 (by decide)

end Signed

end ClassRenaming
