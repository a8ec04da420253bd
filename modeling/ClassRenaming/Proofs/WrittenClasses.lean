import ClassRenaming.Proofs.RecomputedClasses

/-!
Writing a class and reading it again. It comes back as it was, whether it was just read, renamed or
given new frames, as far as its texts can be stored.
-/

namespace ClassRenaming

/-- The models that come of a class file: what was read, renamed by any tables, its methods with new
frames in any surroundings. -/
inductive ClassFile.Derives (file : ClassFile) : ClassModel → Prop where
  | parsed : Derives file file.model
  | renamed (table : Renaming) {model : ClassModel} :
    Derives file model → Derives file (model.relocate table)
  | recomputed {context : FrameContext} {name : String} {major : UInt16}
      {cache after : MetadataCache} {model : ClassModel} {methods : List Member} :
    Derives file model →
      (model.methods.mapM (Relocator.recomputeMember context name major)).run cache =
        (.ok methods, after) →
      Derives file { model with methods }

theorem ClassModel.Proper.methods_recomputed {depth : Nat} {model : ClassModel}
    {context : FrameContext} {name : String} {major : UInt16} {cache after : MetadataCache}
    {methods : List Member} (proper : model.Proper depth)
    (done : (model.methods.mapM (Relocator.recomputeMember context name major)).run cache =
      (.ok methods, after)) : ({ model with methods } : ClassModel).Proper depth := by
  have each : ∀ member ∈ model.methods, Keeps context.hierarchy (fun _ => True)
      (Relocator.recomputeMember context name major member)
      (Member.Recomputed (fun _ => True) .method member) :=
    fun member _ => keeps_recomputeMember .trivial trivial fun _ _ => trivial
  have anything : context.hierarchy.Declares (fun _ => True) cache :=
    fun _ => ⟨fun _ _ => trivial, fun _ _ => trivial⟩
  have all := (Keeps.mapM each cache anything).1 methods (congrArg Prod.fst done)
  exact proper.recomputed all

theorem ClassFile.Derives.proper {file : ClassFile} {depth : Nat} {model : ClassModel}
    (derives : file.Derives model) (proper : file.model.Proper depth) : model.Proper depth := by
  induction derives with
  | parsed => exact proper
  | renamed table _ ih => exact ih.relocate table
  | recomputed _ done ih => exact ih.methods_recomputed done

theorem ClassFile.parse_of_written {bytes written : Bytes} {file : ClassFile} {model : ClassModel}
    (parsed : ClassFile.parse bytes = .ok file) (proper : model.Proper file.pool.depth)
    (done : ClassFile.toBytes { file with model } = .ok written) :
    ∃ result back, ClassFile.parse written = .ok result ∧
      (∀ text, back text = text ∨ back text = ModifiedUtf8.recoded text) ∧
        (model.mapTexts (.all back)).ComesBack result.pool result.model ∧
          file.pool.bootstrap.toList <+: result.pool.bootstrap.toList := by
  obtain ⟨sound, -⟩ := ClassFile.proper_of_parse parsed
  have still : ({ file with model } : ClassFile).model.Proper file.pool.depth := proper
  exact ClassFile.parse_of_proper still ConstantPool.depth_le sound
    ConstantPool.bootstrap_of_depth done

/-- What is written of a class that was read, whatever was renamed and recomputed in between, is read
as the same class: with the constants that method handles and indices in the pool call for, with
every code offset in the layout of its body, and with the bootstrap methods that there were. -/
theorem ClassFile.written_comesBack {bytes written : Bytes} {file : ClassFile} {model : ClassModel}
    (parsed : ClassFile.parse bytes = .ok file) (derives : file.Derives model)
    (storable : AllStorable model.texts)
    (done : ClassFile.toBytes { file with model } = .ok written) :
    ∃ result, ClassFile.parse written = .ok result ∧
      model.ComesBack result.pool result.model ∧
        file.pool.bootstrap.toList <+: result.pool.bootstrap.toList := by
  have proper := derives.proper (ClassFile.proper_of_parse parsed).2
  obtain ⟨result, back, read, near, comes, rows⟩ := ClassFile.parse_of_written parsed proper done
  rw [model.mapTexts_eq_self (fixes_of_storable near storable)] at comes
  exact ⟨result, read, comes, rows⟩

open Bytes in
/-- The class `o/A/B` with a method `run` that casts to it. -/
def castClass : Bytes :=
  let pool := [1] ++ u2 5 ++ [0x6F, 0x2F, 0x41, 0x2F, 0x42] ++ [7] ++ u2 1 ++
    [1] ++ u2 3 ++ [0x72, 0x75, 0x6E] ++ [1] ++ u2 3 ++ [0x28, 0x29, 0x56] ++
    [1] ++ u2 4 ++ [0x43, 0x6F, 0x64, 0x65]
  let body := u2 1 ++ u2 0 ++ u4 6 ++ [0x01, 0xC0, 0x00, 0x02, 0x57, 0xB1] ++ u2 0 ++ u2 0
  let method := u2 0x0009 ++ u2 3 ++ u2 4 ++ u2 1 ++ u2 5 ++ u4 18 ++ body
  u4 magic ++ u2 0 ++ u2 52 ++ u2 6 ++ pool ++ u2 0x0021 ++ u2 2 ++ u2 0 ++ u2 0 ++ u2 0 ++
    u2 1 ++ method ++ u2 0

def shortening : Renaming := ⟨[⟨"o/A", "n"⟩]⟩

theorem castClass_comesBack : ∃ file written, ClassFile.parse castClass = .ok file ∧
    ClassFile.toBytes { file with model := file.model.relocate shortening } = .ok written ∧
    AllStorable (file.model.relocate shortening).texts ∧
    ∃ result, ClassFile.parse written = .ok result ∧
      (file.model.relocate shortening).ComesBack result.pool result.model ∧
        file.pool.bootstrap.toList <+: result.pool.bootstrap.toList := by
  have runs : (do
      let file ← ClassFile.parse castClass
      discard <| ClassFile.toBytes { file with model := file.model.relocate shortening }
      return (file.model.name, decide (AllStorable (file.model.relocate shortening).texts))) =
        .ok ("o/A/B", true) := by
    decide +kernel
  obtain ⟨file, parsed, runs⟩ := Except.bind_eq_ok.1 runs
  obtain ⟨_, discarded, runs⟩ := Except.bind_eq_ok.1 runs
  obtain ⟨written, done, -⟩ := Except.map_eq_ok.1 discarded
  have storable := of_decide_eq_true (Prod.mk.inj (Except.ok.inj runs)).2
  exact ⟨file, written, parsed, done, storable,
    ClassFile.written_comesBack parsed (.renamed shortening .parsed) storable done⟩

end ClassRenaming
