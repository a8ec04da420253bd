import ClassRenaming.Proofs.ComesBack
import ClassRenaming.Proofs.RetoldPool

/-!
What comes back of a class with its texts mapped: what comes back of the class, with its texts
mapped. Where the instructions go does not depend on any text.
-/

namespace ClassRenaming

variable (m : TextMap)

theorem MethodHandle.normal_mapTexts (handle : MethodHandle) :
    (handle.mapTexts m).normal = handle.normal.mapTexts m := by
  unfold MethodHandle.normal
  have same : (handle.mapTexts m).isField = handle.isField := rfl
  rw [same]
  split <;> rfl

mutual

theorem Constant.normal_mapTexts : ∀ constant : Constant,
    (constant.mapTexts m).normal = constant.normal.mapTexts m
  | .integer _ | .float _ | .long _ | .double _ | .string _ | .classRef _ | .methodType _ => rfl
  | .methodHandle handle => congrArg _ (MethodHandle.normal_mapTexts m handle)
  | .dynamic name descriptor ⟨method, arguments⟩ => by
    simp only [Constant.mapTexts, Constant.normal, MethodHandle.normal_mapTexts,
      Constant.normalList_mapTexts arguments]

theorem Constant.normalList_mapTexts : ∀ constants : List Constant,
    Constant.normalList (Constant.mapTextsList m constants) =
      Constant.mapTextsList m (Constant.normalList constants)
  | [] => rfl
  | first :: rest => by
    simp only [Constant.mapTextsList, Constant.normalList, Constant.normal_mapTexts first,
      Constant.normalList_mapTexts rest]

end

theorem normalBootstrap_mapTexts (bootstrap : BootstrapMethod) :
    normalBootstrap (mapBootstrapTexts m bootstrap) =
      mapBootstrapTexts m (normalBootstrap bootstrap) := by
  simp only [normalBootstrap, mapBootstrapTexts, MethodHandle.normal_mapTexts,
    Constant.normalList_mapTexts]

section Moved

variable (move : Nat → Nat)

theorem VerificationType.moved_mapTexts (type : VerificationType) :
    (type.mapTexts m).moved move = (type.moved move).mapTexts m := by
  cases type <;> rfl

theorem Frame.moved_mapTexts (frame : Frame) :
    (frame.mapTexts m).moved move = (frame.moved move).mapTexts m := by
  obtain ⟨offset, kind⟩ := frame
  cases kind <;>
    simp [Frame.mapTexts, Frame.moved, FrameKind.map, VerificationType.moved_mapTexts]

theorem CodeAttribute.moved_mapTexts (item : CodeAttribute) :
    (item.mapTexts m).moved move = (item.moved move).mapTexts m := by
  cases item with
  | stackMap frames => simp [CodeAttribute.mapTexts, CodeAttribute.moved, Frame.moved_mapTexts]
  | lineNumbers lines => rfl
  | unknown name info => rfl
  | localVariables entries =>
    simp only [CodeAttribute.mapTexts, CodeAttribute.moved, List.map_map]
    rfl
  | localVariableTypes entries =>
    simp only [CodeAttribute.mapTexts, CodeAttribute.moved, List.map_map]
    rfl
  | typeAnnotations visibility entries =>
    simp only [CodeAttribute.mapTexts, CodeAttribute.moved, List.map_map]
    rfl

theorem Instruction.moved_mapTexts (operand : Option UInt16) (instruction : Instruction) :
    (instruction.mapTexts m).moved move operand = (instruction.moved move operand).mapTexts m := by
  cases instruction with
  | load opcode constant =>
    simp only [Instruction.mapTexts, Instruction.moved, Constant.normal_mapTexts]
  | invokeDynamic name descriptor bootstrap =>
    simp only [Instruction.mapTexts, Instruction.moved, normalBootstrap_mapTexts]
  | _ => rfl

end Moved

theorem Instruction.size_mapTexts (offset : Nat) (instruction : Instruction) :
    (instruction.mapTexts m).size offset = instruction.size offset := by
  cases instruction <;> rfl

theorem Instruction.writtenSize_mapTexts (operand : Option UInt16) (position : Nat)
    (instruction : Instruction) :
    (instruction.mapTexts m).writtenSize operand position =
      instruction.writtenSize operand position := by
  have widens : (instruction.mapTexts m).widens operand = instruction.widens operand := by
    cases instruction <;> rfl
  rw [Instruction.writtenSize, Instruction.size_mapTexts, widens]
  rfl

namespace Code

variable (code : Code)

theorem zip_mapTexts {α : Type} (others : List α) :
    (code.mapTexts m).instructions.zip others =
      (code.instructions.zip others).map (Prod.map (Placed.mapTexts m) id) := by
  rw [mapTexts, List.zip_map_left]

theorem spans_mapTexts :
    (code.mapTexts m).spans = code.spans.map (Prod.map (Placed.mapTexts m) id) := by
  have ends : (code.mapTexts m).ends = code.ends := by
    simp only [Code.ends, mapTexts, List.map_map]
    rfl
  rw [spans, ends, zip_mapTexts]
  rfl

end Code

theorem Layout.place_mapTexts (position : Nat) (items : List (Placed × Option UInt16)) :
    place position (items.map (Prod.map (Placed.mapTexts m) id)) = place position items := by
  induction items generalizing position with
  | nil => rfl
  | cons item rest ih =>
    simp only [List.map_cons, Prod.map, place, Placed.mapTexts, Instruction.writtenSize_mapTexts, ih,
      id_eq]

theorem Layout.compute_mapTexts (code : Code) (operands : List (Option UInt16)) :
    compute (code.mapTexts m) operands = compute code operands := by
  unfold compute
  rw [Code.zip_mapTexts, place_mapTexts, Code.spans_mapTexts]
  simp only [List.zip_map_left, List.foldl_map]
  rfl

/-! Indices in another pool that says the same with its texts mapped. -/

section Retold

variable {f : String → String} {pool other : ConstantPool}

theorem Instruction.Refers.mapTexts (retold : pool.Retold f other) {instruction : Instruction}
    {operand : Option UInt16}
    (refers : instruction.Refers pool operand) :
    (instruction.mapTexts (.all f)).Refers other operand := by
  cases instruction with
  | load opcode constant =>
    obtain ⟨index, rfl, found⟩ := refers
    refine ⟨index, rfl, ?_⟩
    rw [Constant.normal_mapTexts]
    exact retold.constant found
  | type opcode name =>
    obtain ⟨index, rfl, found⟩ := refers
    exact ⟨index, rfl, retold.className found⟩
  | multiArray name dimensions =>
    obtain ⟨index, rfl, found⟩ := refers
    exact ⟨index, rfl, retold.className found⟩
  | field opcode member =>
    obtain ⟨index, rfl, found⟩ := refers
    exact ⟨index, rfl, retold.memberRef found⟩
  | method opcode member isInterface =>
    obtain ⟨index, rfl, found⟩ := refers
    exact ⟨index, rfl, retold.memberRef found⟩
  | invokeDynamic name descriptor bootstrap =>
    obtain ⟨index, rfl, found⟩ := refers
    refine ⟨index, rfl, ?_⟩
    rw [normalBootstrap_mapTexts]
    exact retold.invokeDynamic found
  | _ => exact refers

theorem Code.ComesBack.mapTexts (retold : pool.Retold f other) {code result : Code}
    (back : code.ComesBack pool result) :
    (code.mapTexts (.all f)).ComesBack other (result.mapTexts (.all f)) := by
  obtain ⟨operands, layout, refers, compute, rfl⟩ := back
  refine ⟨operands, layout, ?_, (Layout.compute_mapTexts _ code operands).trans compute, ?_⟩
  · exact List.forall₂_map_left_iff.2 (refers.imp fun _ _ here => here.mapTexts retold)
  · have attributes (item : CodeAttribute) :=
      CodeAttribute.moved_mapTexts (.all f) layout.move item
    simp only [moved, List.zip_map_left, Code.mapTexts, List.map_map]
    congr 1
    · refine List.map_congr_left fun item _ => ?_
      simp only [Function.comp_apply, Placed.mapTexts, Prod.map, id_eq, Instruction.moved_mapTexts]
    · refine List.map_congr_left fun item _ => ?_
      exact (attributes item).symm

/-! Attributes, at every depth, and the class around them. -/

mutual

theorem Attribute.ComesBack.mapTexts (retold : pool.Retold f other) (kind : Signature.Kind) :
    ∀ {item result : Attribute}, item.ComesBack pool result →
      (item.mapTexts (.all f) kind).ComesBack other (result.mapTexts (.all f) kind)
  | .constantValue constant, result, back => by
    obtain rfl : result = .constantValue constant.normal := back
    have whole (constant : Constant) : (constantValue constant).mapTexts (.all f) kind =
        .constantValue (constant.mapTexts (.all f)) := by cases constant <;> rfl
    rw [whole, whole, ← Constant.normal_mapTexts]
    rfl
  | .record components, result, back => by
    obtain ⟨others, rfl, inside⟩ := back
    exact ⟨_, rfl, Attribute.ComponentsComeBack.mapTexts retold inside⟩
  | .code body, result, back => by
    obtain ⟨body, rfl, inside⟩ := back
    exact ⟨_, rfl, inside.mapTexts retold⟩
  | .signature _, _, rfl | .exceptions _, _, rfl | .annotations _ _, _, rfl
  | .parameterAnnotations _ _, _, rfl | .typeAnnotations _ _, _, rfl | .annotationDefault _, _, rfl
  | .innerClasses _, _, rfl | .enclosingMethod _ _, _, rfl | .nestHost _, _, rfl
  | .nestMembers _, _, rfl | .permittedSubclasses _, _, rfl | .bootstrapMethods, _, rfl
  | .unknown _ _, _, rfl => rfl

theorem Attribute.ComponentsComeBack.mapTexts (retold : pool.Retold f other) :
    ∀ {components results : List (RecordComponent Attribute)},
      ComponentsComeBack pool components results →
        ComponentsComeBack other (mapTextsComponents (.all f) components)
          (mapTextsComponents (.all f) results)
  | [], _, rfl => rfl
  | ⟨_, _, _⟩ :: _, _, ⟨others, later, rfl, inside, behind⟩ =>
    ⟨_, _, rfl, Attribute.AllComeBack.mapTexts retold .field inside,
      Attribute.ComponentsComeBack.mapTexts retold behind⟩

theorem Attribute.AllComeBack.mapTexts (retold : pool.Retold f other) (kind : Signature.Kind) :
    ∀ {attributes results : List Attribute}, AllComeBack pool attributes results →
      AllComeBack other (mapTextsList (.all f) kind attributes) (mapTextsList (.all f) kind results)
  | [], _, rfl => rfl
  | _ :: _, _, ⟨other, later, rfl, now, behind⟩ =>
    ⟨_, _, rfl, Attribute.ComesBack.mapTexts retold kind now,
      Attribute.AllComeBack.mapTexts retold kind behind⟩

end

theorem Member.ComesBack.mapTexts (retold : pool.Retold f other) (kind : Signature.Kind)
    {member result : Member}
    (back : member.ComesBack pool result) :
    (member.mapTexts (.all f) kind).ComesBack other (result.mapTexts (.all f) kind) where
  access := back.access
  name := congrArg f back.name
  descriptor := congrArg f back.descriptor
  attributes := Attribute.AllComeBack.mapTexts retold kind back.attributes

end Retold

end ClassRenaming
