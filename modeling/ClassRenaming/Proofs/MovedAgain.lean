import ClassRenaming.Proofs.RepeatedWriting

/-!
A body that is read back from its bytes is written in the same bytes. Its instructions stand where
their layout put them, so the next layout moves no offset, and every index is that of the same value.
-/

namespace ClassRenaming

open Reader (bind_eq_ok pure_eq_ok lift_eq_ok)

/-! Constants that differ in what writing forgets have the same index. -/

theorem methodHandle_normal (handle : MethodHandle) :
    Interning.methodHandle handle.normal = Interning.methodHandle handle := by
  unfold MethodHandle.normal
  split
  case isTrue isField =>
    have still : ({ handle with isInterface := false } : MethodHandle).isField = true := isField
    rw [Interning.methodHandle, Interning.methodHandle, if_pos still, if_pos isField]
  case isFalse => rfl

mutual

theorem constant_normal : ∀ constant : Constant,
    Interning.constant constant.normal = Interning.constant constant
  | .methodHandle handle => methodHandle_normal handle
  | .dynamic name descriptor ⟨method, arguments⟩ => by
    rw [Constant.normal, Interning.constant, Interning.constant, methodHandle_normal,
      constants_normal]
  | .integer _ | .float _ | .long _ | .double _ | .string _ | .classRef _ | .methodType _ => rfl

theorem constants_normal : ∀ constants : List Constant,
    Interning.constants (Constant.normalList constants) = Interning.constants constants
  | [] => rfl
  | first :: rest => by
    rw [Constant.normalList, Interning.constants, Interning.constants, constant_normal,
      constants_normal]

end

theorem Instruction.operand_moved (instruction : Instruction) (move : Nat → Nat)
    (operand : Option UInt16) : (instruction.moved move operand).operand = instruction.operand := by
  cases instruction with
  | load opcode constant =>
    rw [Instruction.moved, Instruction.operand, Instruction.operand, constant_normal]
  | invokeDynamic name descriptor bootstrap =>
    simp only [Instruction.moved, Instruction.operand, Interning.invokeDynamic,
      Interning.bootstrapMethod, normalBootstrap, methodHandle_normal, constants_normal]
  | _ => rfl

/-- Offsets move no further than a length, and up to it they do not move again. -/
structure Settles (move again : Nat → Nat) (length : Nat) : Prop where
  within : ∀ offset, move offset ≤ length
  still : ∀ offset ≤ length, again offset = offset
  short : length < 65536

section Settles

variable {move again : Nat → Nat} {length : Nat} (settles : Settles move again length)

include settles

theorem Settles.twice (offset : Nat) : again (move offset) = move offset :=
  settles.still _ (settles.within offset)

theorem Settles.span (start stop : Nat) :
    again (move start + (move stop - move start)) - move start = move stop - move start := by
  have first := settles.within start
  have last := settles.within stop
  rw [settles.still _ (by omega)]
  omega

theorem Instruction.write_moved (position : Nat) (operand : Option UInt16)
    (instruction : Instruction) :
    (instruction.moved move operand).write again position operand =
      instruction.write move position operand := by
  cases instruction with
  | load opcode constant =>
    have longer : Opcode.ldcW ≠ Opcode.ldc := by decide
    cases operand with
    | none => rfl
    | some index =>
      by_cases wide : opcode = Opcode.ldc ∧ index > 255
      · obtain ⟨rfl, large⟩ := wide
        simp [Instruction.moved, Instruction.write, Instruction.needOperand, large, longer, bind,
          Except.bind, UInt16.not_le.2 large]
      · rw [Instruction.moved, if_neg (by simpa using wide)]
        rfl
  | jump opcode target => simp only [Instruction.moved, Instruction.write, settles.twice]
  | tableSwitch default low high targets =>
    simp only [Instruction.moved, Instruction.write, settles.twice, List.flatMap_map]
  | lookupSwitch default pairs =>
    simp only [Instruction.moved, Instruction.write, settles.twice, List.flatMap_map,
      List.length_map]
  | _ => rfl

theorem LocalRange.write_moved (range : LocalRange) :
    (range.moved move).write again = range.write move := by
  simp only [LocalRange.moved, LocalRange.write, settles.twice, settles.span]

theorem TypeTarget.write_moved (target : TypeTarget) :
    (target.moved move).write again = target.write move := by
  cases target with
  | localVariable ranges =>
    simp only [TypeTarget.moved, TypeTarget.write, List.length_map, List.mapM_map,
      Function.comp_def, LocalRange.write_moved settles]
  | offset position => simp only [TypeTarget.moved, TypeTarget.write, settles.twice]
  | typeArgument position index => simp only [TypeTarget.moved, TypeTarget.write, settles.twice]
  | _ => rfl

theorem TypeAnnotation.write_moved (item : TypeAnnotation) :
    (item.moved move).write again = item.write move := by
  rw [write, write, ← TypeTarget.write_moved settles]
  rfl

theorem TypeAnnotation.writeTable_moved (entries : List TypeAnnotation) :
    writeTable again (entries.map (moved move)) = writeTable move entries := by
  simp only [writeTable, List.length_map, List.mapM_map, Function.comp_def, write_moved settles]

theorem VerificationType.write_moved (type : VerificationType) :
    (type.moved move).write again = type.write move := by
  cases type with
  | uninitialized offset =>
    have small : move offset < 65536 := Nat.lt_of_le_of_lt (settles.within offset) settles.short
    simp only [VerificationType.moved, VerificationType.write, settles.twice, small, if_true]
  | _ => rfl

theorem FrameKind.write_moved (distance : Nat) (kind : FrameKind) :
    (kind.map (VerificationType.moved move)).write again distance = kind.write move distance := by
  cases kind <;>
    simp only [FrameKind.map, FrameKind.write, VerificationType.write_moved settles,
      VerificationType.writeAll, VerificationType.writeTable, List.length_map, List.mapM_map,
      Function.comp_def]

theorem Frame.writeFrom_moved (base : Nat) (frames : List Frame) :
    Frame.writeFrom again base (frames.map (Frame.moved move)) =
      Frame.writeFrom move base frames := by
  induction frames generalizing base with
  | nil => rfl
  | cons frame rest ih =>
    simp only [List.map_cons, Frame.writeFrom, ih]
    simp only [Frame.moved, settles.twice, FrameKind.write_moved settles]

omit settles in
theorem writeTable_map {α : Type} {first second : α → Interning Bytes} {f : α → α}
    (same : ∀ item, first (f item) = second item) (items : List α) :
    writeTable first (items.map f) = writeTable second items := by
  simp only [writeTable, List.length_map, List.mapM_map, Function.comp_def, same]

theorem LineNumber.write_moved (line : LineNumber) :
    (line.moved move).write again = line.write move := by
  simp only [LineNumber.moved, LineNumber.write, settles.twice]

theorem LocalVariable.write_moved (entry : LocalVariable) :
    (entry.moved move).write again = entry.write move := by
  simp only [LocalVariable.moved, LocalVariable.write, settles.twice, settles.span]

theorem Handler.write_moved (handler : Handler) :
    (handler.moved move).write again = handler.write move := by
  simp only [Handler.moved, Handler.write, settles.twice]

theorem CodeAttribute.write_moved (item : CodeAttribute) :
    (item.moved move).write again = item.write move := by
  have body : (item.moved move).writeBody again = item.writeBody move := by
    cases item with
    | stackMap frames =>
      simp only [CodeAttribute.moved, CodeAttribute.writeBody, Frame.writeTable, List.length_map,
        Frame.writeFrom_moved settles]
    | lineNumbers lines =>
      exact writeTable_map (fun line => by rw [LineNumber.write_moved settles line]) lines
    | localVariables table => exact writeTable_map (LocalVariable.write_moved settles) table
    | localVariableTypes table => exact writeTable_map (LocalVariable.write_moved settles) table
    | typeAnnotations visibility annotations =>
      exact TypeAnnotation.writeTable_moved settles annotations
    | unknown name info => rfl
  have name : (item.moved move).name = item.name := by cases item <;> rfl
  rw [CodeAttribute.write, CodeAttribute.write, body, name]

end Settles

theorem KeepsKnown.id : KeepsKnown id := ⟨fun _ _ => rfl, fun _ _ => rfl⟩

theorem Interns.settled {α : Type} {depth : Nat} {action : Interning α}
    {means : ConstantPool → α → Prop} (interns : Interns depth action means) {pool : ConstantPool}
    (sound : pool.Sound) {value : α} (done : action pool = .ok (value, pool)) : means pool value :=
  (interns sound done).2.2 sound (.refl pool)

theorem zip_map_parts {α β γ δ : Type} (f : (α × β) × γ → δ) {first : List α} {second : List β}
    {third : List γ} (same : second.length = first.length) (also : third.length = first.length) :
    ((((first.zip second).zip third).map f).zip second).zip third =
      ((first.zip second).zip third).map fun spot => ((f spot, spot.1.2), spot.2) := by
  induction first generalizing second third with
  | nil => simp
  | cons item first ih =>
    obtain ⟨other, second, rfl⟩ := List.exists_cons_of_length_eq_add_one same
    obtain ⟨last, third, rfl⟩ := List.exists_cons_of_length_eq_add_one also
    simp [ih (Nat.succ.inj same) (Nat.succ.inj also)]

namespace Code

variable {code : Code} {operands : List (Option UInt16)} {layout : Layout}

theorem compute_moved (same : operands.length = code.instructions.length)
    (tiles : Tiles 0 code.instructions code.length)
    (computed : Layout.compute code operands = .ok layout) :
    ∃ again, Layout.compute (code.moved operands layout) operands = .ok again ∧
      again.starts = layout.starts ∧ again.length = layout.length ∧
        Settles layout.move again.move layout.length := by
  have covers := Layout.covers_compute same tiles computed
  have offsets := covers.offsets same
  have lengths : (code.moved operands layout).instructions.length = code.instructions.length := by
    rw [← List.length_map (f := Placed.offset), offsets, covers.moves, List.length_map]
  have narrow : List.Forall₂ (fun placed operand => placed.instruction.widens operand = false)
      (code.moved operands layout).instructions operands := by
    refine List.forall₂_iff_get.2 ⟨lengths.trans same.symm, fun i inside within => ?_⟩
    simp [moved, Instruction.widens_moved]
  obtain ⟨again, done, starts, length, still⟩ := Layout.compute_still
    (same.trans lengths.symm) covers.tiles (Nat.le_of_lt_succ covers.small) narrow
  exact ⟨again, done, starts.trans offsets, length,
    Layout.move_le_length computed, still, covers.small⟩

section Spots

variable (same : operands.length = code.instructions.length)
  (starts : layout.starts.length = code.instructions.length)

include same starts

theorem operands_moved :
    (code.moved operands layout).instructions.mapM (·.instruction.operand) =
      code.instructions.mapM (·.instruction.operand) := by
  have pairs : ((code.instructions.zip operands).zip layout.starts).map Prod.fst =
      code.instructions.zip operands := List.map_fst_zip (by simp [same, starts])
  conv_rhs => rw [← List.map_fst_zip same.ge, ← pairs]
  simp only [moved, List.mapM_map, Function.comp_def, Instruction.operand_moved]

theorem bytecode_moved {again : Layout} (stays : again.starts = layout.starts)
    (settles : Settles layout.move again.move layout.length) :
    (code.moved operands layout).bytecode operands again = code.bytecode operands layout := by
  rw [bytecode, bytecode, stays, moved, zip_map_parts _ same starts, List.mapM_map]
  simp only [Function.comp_def, Instruction.write_moved settles]

end Spots

theorem settled {depth : Nat} {pool : ConstantPool} {info : Bytes} (proper : code.Proper depth)
    (within : depth ≤ ConstantPool.dynamicDepth) (sound : pool.Sound)
    (done : code.write pool = .ok (info, pool)) :
    ∃ result, Code.read pool info = .ok result ∧ result.write pool = .ok (info, pool) := by
  obtain ⟨operands, first, indexed, done⟩ := bind_eq_ok.1 done
  obtain ⟨layout, _, lifted, done⟩ := bind_eq_ok.1 done
  obtain ⟨computed, rfl⟩ := lift_eq_ok.1 lifted
  obtain ⟨bytecode, _, lifted', done⟩ := bind_eq_ok.1 done
  obtain ⟨written, rfl⟩ := lift_eq_ok.1 lifted'
  obtain ⟨handlers, second, listed, done⟩ := bind_eq_ok.1 done
  obtain ⟨attributes, third, tabled, done⟩ := bind_eq_ok.1 done
  obtain ⟨rfl, rfl⟩ := pure_eq_ok.1 done
  have kept := code.mapTexts_eq_self (f := id) fun _ _ => rfl
  obtain ⟨-, indexed⟩ := repeats_operands (congrArg Code.instructions kept) indexed
  obtain ⟨grows₁, listed⟩ := Repeats.table (fun handler member => repeats_handler layout.move
    (map_eq_self_iff.1 (congrArg Code.handlers kept) handler member)) listed
  obtain ⟨grows₂, tabled⟩ := Repeats.table (fun item member => repeats_codeAttribute layout.move .id
    (map_eq_self_iff.1 (congrArg Code.attributes kept) item member)) tabled
  replace indexed := indexed (grows₁.trans grows₂)
  replace listed := listed grows₂
  replace tabled := tabled (.refl _)
  have refers := (proper.interns_operands within).settled sound indexed
  have same := refers.length_eq.symm
  have covers := Layout.covers_compute same proper.tiles computed
  have starts : layout.starts.length = code.instructions.length := by
    rw [covers.moves, List.length_map]
  have readHandlers := (interns_table fun handler member => interns_handler
    (proper.moved_handler covers same member) : Interns depth _ _).settled sound listed
  have readAttributes := (interns_table fun item member => CodeAttribute.interns_write
    (proper.attributes item member) : Interns depth _ _).settled sound tabled
  refine ⟨code.moved operands layout,
    proper.reads_parts covers refers written readHandlers readAttributes, ?_⟩
  obtain ⟨again, done, stays, length, settles⟩ := compute_moved same proper.tiles computed
  rw [← operands_moved same starts] at indexed
  rw [← bytecode_moved same starts stays settles] at written
  rw [← writeTable_map (Handler.write_moved settles)] at listed
  rw [← writeTable_map (CodeAttribute.write_moved settles)] at tabled
  refine bind_eq_ok.2 ⟨operands, _, indexed, ?_⟩
  refine bind_eq_ok.2 ⟨again, _, lift_eq_ok.2 ⟨done, rfl⟩, ?_⟩
  refine bind_eq_ok.2 ⟨bytecode, _, lift_eq_ok.2 ⟨written, rfl⟩, ?_⟩
  refine bind_eq_ok.2 ⟨handlers, _, listed, bind_eq_ok.2 ⟨attributes, _, tabled, ?_⟩⟩
  rw [length]
  rfl

end Code

end ClassRenaming
