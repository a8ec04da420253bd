import ClassRenaming.Proofs.SameAnswers

/-!
Relocating one class after another. Classes share what was learned of types, and a class that is
renamed adds what its own header says. If that is what the hierarchy loads for its name, every class
gets the result that it gets alone, in any order. If not, a question for the class that is asked
before its turn leaves an answer that its header cannot replace.
-/

namespace ClassRenaming

namespace Relocator

variable {relocator : Relocator}

/-- What a class says of itself in its turn is what the hierarchy loads for its name. -/
def Knows (relocator : Relocator) (bytes : Bytes) : Prop :=
  ∀ file, relocator.skips none bytes = .ok false → ClassFile.parse bytes = .ok file →
    file.model.siteCount relocator.table ≠ 0 →
      relocator.hierarchy.load (file.model.relocate relocator.table).name =
        .ofHeader (file.model.relocate relocator.table).toClassHeader

theorem ensures_seed {hierarchy : Hierarchy} {entry : TypeMetadata}
    (known : hierarchy.load entry.name = entry) :
    Ensures hierarchy hierarchy.load (Hierarchy.seed entry) fun _ => True := by
  intro cache same
  have kept := hierarchy.view_insert_load cache entry.name
  rw [known, same] at kept
  exact ⟨trivial, kept⟩

theorem determined_recomputeFrames (name : String) {model : ClassModel}
    (known : relocator.hierarchy.load model.name = .ofHeader model.toClassHeader) :
    Determined relocator.hierarchy relocator.hierarchy.load
      (relocator.recomputeFrames name model).run := by
  unfold recomputeFrames
  have seeded : Determined relocator.hierarchy relocator.hierarchy.load
      (discard (Hierarchy.seed (.ofHeader model.toClassHeader))) :=
    ⟨(), (ensures_seed known).map fun _ _ => rfl⟩
  refine .andThen (.lift seeded) fun _ => .andThen (.each fun member _ => ?_) fun methods => .pure _
  exact determined_recomputeMember ⟨relocator.hierarchy, model.name⟩ name model.major member

theorem determined_relocate {bytes : Bytes}
    (known : relocator.options.strategy = .safe → relocator.Knows bytes) :
    Determined relocator.hierarchy relocator.hierarchy.load (relocator.relocate none bytes).run := by
  unfold relocate
  dsimp only
  split
  · exact .throw _
  · exact .pure _
  · next looked =>
    split
    · exact .throw _
    · next file parsed =>
      unfold relocateFile
      dsimp only
      split
      · exact .pure _
      · next sited =>
        split
        · next safe =>
          have named := known safe file looked parsed sited
          refine .andThen (determined_recomputeFrames _ named) fun model => ?_
          split
          · exact .pure _
          · exact .throw _
        · refine .andThen (.pure _) fun model => ?_
          split
          · exact .pure _
          · exact .throw _

/-- Every class gets the result that it gets alone, whatever the order. -/
theorem relocateAll_alone {classes : List Bytes}
    (known : relocator.options.strategy = .safe → ∀ bytes ∈ classes, relocator.Knows bytes) :
    ∀ others, others.Perm classes → (relocator.relocateAll others .empty).1 =
      others.map fun bytes => (relocator.relocate none bytes .empty).1 := by
  intro others order
  have each : ∀ bytes ∈ others, Ensures relocator.hierarchy relocator.hierarchy.load
      (relocator.relocate none bytes).run
      (· = (relocator.relocate none bytes .empty).1) := by
    intro bytes member
    have determined := determined_relocate fun safe => known safe bytes (order.mem_iff.1 member)
    obtain ⟨value, found⟩ := determined
    have alone : (relocator.relocate none bytes .empty).1 = value := (found .empty rfl).1
    rw [alone]
    exact found
  exact (Ensures.mapM_eq each .empty rfl).1

end Relocator

/-! Two classes, of which the first asks for the second. -/

section Siblings

open Bytes

def poolText (text : String) : Bytes :=
  let bytes := ModifiedUtf8.encode text
  [1] ++ u2 bytes.length.toUInt16 ++ bytes

/-- A class with a method `run` that puts its second parameter in the place of the first, again and
again. -/
def loopClass (name superclass descriptor : String) : Bytes :=
  let pool := poolText name ++ [7] ++ u2 1 ++ poolText superclass ++ [7] ++ u2 3 ++
    poolText "run" ++ poolText descriptor ++ poolText "Code"
  let body := u2 1 ++ u2 2 ++ u4 5 ++ [0x2B, 0x4B, 0xA7, 0xFF, 0xFE] ++ u2 0 ++ u2 0
  let method := u2 0x0009 ++ u2 5 ++ u2 6 ++ u2 1 ++ u2 7 ++ u4 17 ++ body
  u4 magic ++ u2 0 ++ u2 52 ++ u2 8 ++ pool ++ u2 0x0021 ++ u2 2 ++ u2 4 ++ u2 0 ++ u2 0 ++
    u2 1 ++ method ++ u2 0

def mainClass : Bytes := loopClass "app/Main" "old/Root" "(Lapp/Task;Lapp/Main;)V"

def taskClass : Bytes := loopClass "app/Task" "old/Base" "(Lapp/Task;Lold/Base;)V"

def siblingRelocator (source : ClassSource) : Relocator where
  table := ⟨[⟨"old", "new"⟩]⟩
  hierarchy := ⟨source, some ⟨[⟨"old", "new"⟩]⟩⟩
  options := .default

end Siblings

/-- With both classes at hand, each has its result in either order. -/
theorem siblings_alone :
    let relocator := siblingRelocator (.ofClasses [("app/Main", mainClass), ("app/Task", taskClass)])
    (∀ bytes ∈ [mainClass, taskClass], relocator.Knows bytes) ∧
      (relocator.relocateAll [taskClass, mainClass] .empty).1 =
        [(relocator.relocate none taskClass .empty).1, (relocator.relocate none mainClass .empty).1] := by
  intro relocator
  have known : ∀ bytes ∈ [mainClass, taskClass], relocator.Knows bytes := by
    have checked : ∀ bytes ∈ [mainClass, taskClass], ((ClassFile.parse bytes).toOption.all fun file =>
        decide (relocator.hierarchy.load (file.model.relocate relocator.table).name =
          .ofHeader (file.model.relocate relocator.table).toClassHeader)) = true := by
      decide +kernel
    intro bytes member file _ parsed _
    have found := checked bytes member
    rw [parsed] at found
    exact of_decide_eq_true found
  exact ⟨known, Relocator.relocateAll_alone (fun _ => known) _ (.swap _ _ _)⟩

/-- With neither at hand, the question of the first leaves the second without its superclass. -/
theorem siblings_depend_on_order :
    let relocator := siblingRelocator .empty
    (relocator.relocateAll [mainClass, taskClass] .empty).1 ≠
      (relocator.relocateAll [taskClass, mainClass] .empty).1.reverse := by
  intro relocator same
  have results := congrArg (List.map Except.toOption) same
  revert results
  decide +kernel

end ClassRenaming
