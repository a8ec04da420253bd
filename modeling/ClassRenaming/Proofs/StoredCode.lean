import ClassRenaming.Code.Reading
import ClassRenaming.Code.Writing
import ClassRenaming.Proofs.StoredFrames
import ClassRenaming.Proofs.StoredInstructions

/-!
The body of a method is read back from its bytes, in the layout that it was written in. The starts
of instructions are the same marks before and after, so the targets and the exception table pass the
checks that they passed before.
-/

namespace ClassRenaming

open Reader

variable {depth : Nat}

/-! Tables and attributes. -/

theorem interns_table {α β : Type} {write : α → Interning Bytes} {reader : ConstantPool → Reader β}
    {f : α → β} {items : List α}
    (each : ∀ item ∈ items, Interns depth (write item) fun pool bytes =>
      Reads (reader pool) bytes (f item)) :
    Interns depth (writeTable write items) fun pool bytes =>
      Reads (table (reader pool)) bytes (items.map f) := by
  refine (Interns.lift fun count counts _ _ => counts).bind fun count => ?_
  refine (Interns.mapM each).bind fun parts => .pure fun pool _ reads counts => ?_
  exact Reads.table counts (List.length_map _) (List.forall₂_map_right_iff.2 reads.flip)

theorem interns_items {α : Type} {write : α → Interning Bytes} {reader : ConstantPool → Reader α}
    {items : List α}
    (each : ∀ item ∈ items, Interns depth (write item) fun pool bytes =>
      Reads (reader pool) bytes item) :
    Interns depth (writeTable write items) fun pool bytes =>
      Reads (table (reader pool)) bytes items := by
  have mapped := interns_table (f := id) each
  rwa [List.map_id] at mapped

theorem reads_takeAttribute {pool : ConstantPool} {index : UInt16} {name : String}
    {info bytes : Bytes} (named : pool.utf8 index = .ok name)
    (written : attributeBytes index info = .ok bytes) :
    Reads (takeAttribute pool) bytes (name, info) := by
  unfold attributeBytes at written
  split at written
  case isTrue short =>
    cases written
    have length : info.length.toUInt32.toNat = info.length := by
      simp only [Nat.toUInt32, UInt32.toNat_ofNat']
      omega
    rw [List.append_assoc]
    refine (Reads.u2 _).bind ((Reads.u4 _).bind ?_)
    rw [length]
    exact (Reads.take rfl).last ((Reads.lift named).skip (.pure _))
  case isFalse => cases written

namespace CodeAttribute

def known : List String :=
  ["StackMapTable", "LineNumberTable", "LocalVariableTable", "LocalVariableTypeTable",
    "RuntimeVisibleTypeAnnotations", "RuntimeInvisibleTypeAnnotations"]

def Proper : CodeAttribute → Prop
  | stackMap frames => ∀ frame ∈ frames, frame.kind.Short
  | typeAnnotations _ annotations => ∀ item ∈ annotations, item.target.Matches item.targetType
  | unknown name _ => name ∉ known
  | _ => True

theorem read_unknown {pool : ConstantPool} {name : String} {info : Bytes} (other : name ∉ known) :
    read pool name info = .ok (.unknown name info) := by
  unfold read
  split <;> first | rfl | simp [known] at other

variable {move : Nat → Nat}

theorem reads_lineNumber {line : LineNumber} {bytes : Bytes}
    (written : line.write move = .ok bytes) :
    Reads (do return (⟨(← Reader.u2).toNat, ← Reader.u2⟩ : LineNumber)) bytes (line.moved move) := by
  obtain ⟨first, here, written⟩ := Except.bind_eq_ok.1 written
  obtain ⟨start, rfl, startIs⟩ := codeOffset_eq_ok here
  cases written
  rw [LineNumber.moved, ← startIs]
  exact (Reads.u2 _).bind ((Reads.u2 _).last (.pure _))

theorem interns_localVariable (entry : LocalVariable) :
    Interns depth (entry.write move) fun pool bytes =>
      Reads (LocalVariable.read pool) bytes (entry.moved move) := by
  refine (Interns.lift fun first here _ _ => codeOffset_eq_ok here).bind fun first => ?_
  refine (Interns.lift fun second here _ _ => codeOffset_eq_ok here).bind fun second => ?_
  refine (interns_utf8 _).bind fun name => ?_
  refine (interns_utf8 _).bind fun descriptor => ?_
  refine .pure fun pool _ typed named length start => ?_
  obtain ⟨start, rfl, startIs⟩ := start
  obtain ⟨length, rfl, lengthIs⟩ := length
  rw [LocalVariable.moved, ← lengthIs, ← startIs]
  simp only [List.append_assoc]
  refine (Reads.u2 _).bind ((Reads.u2 _).bind ?_)
  exact (reads_takeUtf8 named).bind ((reads_takeUtf8 typed).bind ((Reads.u2 _).last (.pure _)))

theorem interns_body {item : CodeAttribute} (proper : item.Proper) :
    Interns depth (item.writeBody move) fun pool info =>
      read pool item.name info = .ok (item.moved move) := by
  cases item with
  | stackMap frames =>
    refine (interns_frameTable proper).mono fun pool _ info reads => ?_
    have whole : (Frame.readTable pool).all info .trailingBytes = .ok _ := reads.all
    simp only [name, read, whole]
    rfl
  | lineNumbers lines =>
    refine (interns_table fun line _ => Interns.lift fun bytes written _ _ =>
      reads_lineNumber written).mono fun pool _ info reads => ?_
    have whole : (table _).all info .trailingBytes = .ok _ := reads.all
    simp only [name, read, whole]
    rfl
  | localVariables entries =>
    refine (interns_table fun entry _ => interns_localVariable entry).mono
      fun pool _ info reads => ?_
    have whole : (table _).all info .trailingBytes = .ok _ := reads.all
    simp only [name, read, whole]
    rfl
  | localVariableTypes entries =>
    refine (interns_table fun entry _ => interns_localVariable entry).mono
      fun pool _ info reads => ?_
    have whole : (table _).all info .trailingBytes = .ok _ := reads.all
    simp only [name, read, whole]
    rfl
  | typeAnnotations visibility annotations =>
    refine TypeAnnotation.interns_writeTable proper |>.mono fun pool _ info reads => ?_
    have whole : Reader.all _ info .trailingBytes = .ok _ := reads.all
    cases visibility <;>
      simp only [name, Visibility.typeAnnotationsName, read, whole] <;> rfl
  | unknown name info => exact .pure fun pool _ => read_unknown proper

theorem interns_write {item : CodeAttribute} (proper : item.Proper) :
    Interns depth (item.write move) fun pool bytes =>
      Reads (do
        let (name, info) ← takeAttribute pool
        CodeAttribute.read pool name info) bytes (item.moved move) := by
  refine (interns_body proper).bind fun info => ?_
  refine (interns_utf8 _).bind fun index => ?_
  refine .lift fun bytes written pool _ named body => ?_
  exact (reads_takeAttribute named written).last (.lift body)

end CodeAttribute

theorem className?_of_className {pool : ConstantPool} (sound : pool.Sound) {index : UInt16}
    {name : String} (named : pool.className index = .ok name) :
    pool.className? index = .ok (some name) := by
  rw [ConstantPool.className?, if_neg (sound.className_ne_zero named), named]
  rfl

theorem interns_handler {move : Nat → Nat} {handler : Handler} {isStart : Nat → Bool} {length : Nat}
    (valid : Code.handlerIsValid isStart length (handler.moved move) = true) :
    Interns depth (handler.write move) fun pool bytes =>
      Reads (Code.readHandler pool isStart length) bytes (handler.moved move) := by
  refine (Interns.lift fun first here _ _ => codeOffset_eq_ok here).bind fun first => ?_
  refine (Interns.lift fun second here _ _ => codeOffset_eq_ok here).bind fun second => ?_
  refine (Interns.lift fun third here _ _ => codeOffset_eq_ok here).bind fun third => ?_
  have reads : ∀ (pool : ConstantPool) (index : UInt16),
      pool.className? index = .ok handler.catchType →
      (∃ word : UInt16, third = Bytes.u2 word ∧ word.toNat = move handler.target) →
      (∃ word : UInt16, second = Bytes.u2 word ∧ word.toNat = move handler.stop) →
      (∃ word : UInt16, first = Bytes.u2 word ∧ word.toNat = move handler.start) →
      Reads (Code.readHandler pool isStart length) (first ++ second ++ third ++ Bytes.u2 index)
        (handler.moved move) := by
    rintro pool index named ⟨target, rfl, targetIs⟩ ⟨stop, rfl, stopIs⟩ ⟨start, rfl, startIs⟩
    simp only [List.append_assoc]
    refine (Reads.u2 _).bind ((Reads.u2 _).bind ((Reads.u2 _).bind ?_))
    refine Reads.last ((Reads.u2 _).last (.lift named)) ?_
    dsimp only
    rw [startIs, stopIs, targetIs]
    have same : (⟨move handler.start, move handler.stop, move handler.target, handler.catchType⟩ :
        Handler) = handler.moved move := rfl
    rw [same, valid]
    exact .pure _
  cases here : handler.catchType with
  | none =>
    rw [here] at reads
    refine .pure fun pool sound => reads pool 0 rfl
  | some name =>
    rw [here] at reads
    refine (interns_className _).bind fun index => .pure fun pool sound named => ?_
    exact reads pool index (className?_of_className sound named)

namespace Code

def IsStart (instructions : List Placed) (offset : Nat) : Prop :=
  ∃ placed ∈ instructions, placed.offset = offset

/-- A body as one is read: its instructions fill it, and what refers to instructions refers to their
starts. -/
structure Proper (depth : Nat) (code : Code) : Prop where
  tiles : Tiles 0 code.instructions code.length
  nonempty : code.instructions ≠ []
  instructions : ∀ placed ∈ code.instructions, placed.instruction.Proper depth
  targets : ∀ placed ∈ code.instructions, ∀ target ∈ placed.instruction.branchTargets,
    IsStart code.instructions target
  handlers : ∀ handler ∈ code.handlers,
    IsStart code.instructions handler.start ∧ IsStart code.instructions handler.target ∧
      (handler.stop = code.length ∨ IsStart code.instructions handler.stop) ∧
        handler.start < handler.stop
  attributes : ∀ item ∈ code.attributes, item.Proper

theorem startFlags_iff {length offset : Nat} {instructions : List Placed} :
    (startFlags length instructions).getD offset false = true ↔
      offset < length ∧ IsStart instructions offset := by
  have flagged : ∀ flags : Array Bool, (instructions.foldl
      (fun flags placed => flags.setIfInBounds placed.offset true) flags).getD offset false = true ↔
        flags.getD offset false = true ∨ offset < flags.size ∧ IsStart instructions offset := by
    induction instructions with
    | nil => simp [IsStart]
    | cons placed rest ih =>
      intro flags
      rw [List.foldl_cons, ih]
      simp only [Array.getD_eq_getD_getElem?, Array.getElem?_setIfInBounds,
        Array.size_setIfInBounds, IsStart, List.mem_cons, exists_eq_or_imp]
      by_cases same : placed.offset = offset
      · subst same
        by_cases inside : placed.offset < flags.size <;> simp [inside]
      · simp [same]
  have clear : (Array.replicate length false).getD offset false = false := by
    rw [Array.getD_eq_getD_getElem?, Array.getElem?_replicate]
    split <;> rfl
  rw [startFlags, flagged, clear, Array.size_replicate]
  simp

theorem checkTargets_eq_ok {isStart : Nat → Bool} {instructions : List Placed} :
    checkTargets isStart instructions = .ok () ↔
      ∀ placed ∈ instructions, ∀ target ∈ placed.instruction.branchTargets, isStart target = true := by
  induction instructions with
  | nil =>
    constructor
    · intro _ placed member
      cases member
    · exact fun _ => rfl
  | cons placed rest ih =>
    simp only [List.mem_cons, forall_eq_or_imp, ← ih]
    unfold checkTargets
    rw [List.forM_eq_forM, List.forM_cons]
    cases here : placed.instruction.branchTargets.find? (!isStart ·) with
    | none =>
      have all : ∀ target ∈ placed.instruction.branchTargets, isStart target = true := by
        simpa using List.find?_eq_none.1 here
      constructor
      · exact fun done => ⟨all, done⟩
      · exact fun both => both.2
    | some target =>
      have member := List.mem_of_find?_eq_some here
      have wrong := List.find?_some here
      constructor
      · rintro ⟨⟩
      · rintro ⟨all, -⟩
        simp [all target member] at wrong

theorem handlerIsValid_iff {isStart : Nat → Bool} {length : Nat} {handler : Handler} :
    handlerIsValid isStart length handler = true ↔
      isStart handler.start = true ∧ isStart handler.target = true ∧
        (handler.stop = length ∨ isStart handler.stop = true) ∧ handler.start < handler.stop := by
  simp [handlerIsValid, and_assoc]

theorem length_parts {start stop : Nat} {instructions : List Placed} {parts : List Bytes}
    (tiles : Tiles start instructions stop)
    (each : List.Forall₂ (fun bytes placed =>
      bytes.length = placed.instruction.size placed.offset) parts instructions) :
    start + parts.flatten.length = stop := by
  induction each generalizing start with
  | nil => exact tiles
  | @cons bytes placed parts instructions size _ ih =>
    obtain ⟨rfl, later⟩ := tiles
    have rest := ih later
    rw [List.flatten_cons, List.length_append]
    omega

theorem readInstructions_of_parts {pool : ConstantPool} {length start stop steps : Nat}
    {instructions : List Placed} {parts : List Bytes} (tiles : Tiles start instructions stop)
    (each : List.Forall₂ (fun bytes placed =>
      Reads (Instruction.read pool length placed.offset) bytes placed.instruction ∧
        bytes.length = placed.instruction.size placed.offset) parts instructions)
    (enough : parts.flatten.length ≤ steps) :
    readInstructions pool length steps start parts.flatten = .ok instructions := by
  induction each generalizing start steps with
  | nil => cases steps <;> rfl
  | @cons bytes placed parts instructions first _ ih =>
    obtain ⟨rfl, later⟩ := tiles
    obtain ⟨reads, size⟩ := first
    have pos := placed.instruction.size_pos placed.offset
    rw [List.flatten_cons, List.length_append] at enough
    rw [List.flatten_cons]
    cases steps with
    | zero => omega
    | succ steps =>
      have others := ih later (by omega : parts.flatten.length ≤ steps)
      cases bytes with
      | nil =>
        rw [List.length_nil] at size
        omega
      | cons b bytes =>
        have front := reads parts.flatten
        rw [List.cons_append] at front
        rw [List.cons_append, readInstructions, front]
        · dsimp only
          rw [others]
        · exact fun empty => absurd empty (List.cons_ne_nil _ _)

section Layout

variable {code : Code} {operands : List (Option UInt16)} {layout : Layout} {pool : ConstantPool}

theorem isStart_moved (covers : layout.Covers code operands)
    (same : operands.length = code.instructions.length) {offset : Nat}
    (isStart : IsStart code.instructions offset) :
    IsStart (code.moved operands layout).instructions (layout.move offset) ∧
      layout.move offset < layout.length := by
  obtain ⟨placed, member, rfl⟩ := isStart
  refine ⟨?_, covers.move_lt_length same member⟩
  refine List.mem_map.1 ?_
  rw [covers.offsets same, covers.moves]
  exact List.mem_map.2 ⟨placed, member, rfl⟩

theorem Proper.moved_targets (proper : code.Proper depth) (covers : layout.Covers code operands)
    (same : operands.length = code.instructions.length) :
    ∀ placed ∈ (code.moved operands layout).instructions,
      ∀ target ∈ placed.instruction.branchTargets,
        (startFlags layout.length (code.moved operands layout).instructions).getD target false =
          true := by
  intro placed member target isTarget
  obtain ⟨⟨⟨old, operand⟩, start⟩, inside, rfl⟩ := List.mem_map.1 member
  have oldMember := (List.of_mem_zip (List.of_mem_zip inside).1).1
  rw [Instruction.branchTargets_moved] at isTarget
  obtain ⟨before, isBefore, rfl⟩ := List.mem_map.1 isTarget
  have moved := isStart_moved covers same (proper.targets old oldMember before isBefore)
  exact startFlags_iff.2 ⟨moved.2, moved.1⟩

theorem Proper.moved_handler (proper : code.Proper depth) (covers : layout.Covers code operands)
    (same : operands.length = code.instructions.length) {handler : Handler}
    (member : handler ∈ code.handlers) :
    handlerIsValid
      (fun offset =>
        (startFlags layout.length (code.moved operands layout).instructions).getD offset false)
      layout.length (handler.moved layout.move) = true := by
  obtain ⟨start, target, stop, order⟩ := proper.handlers handler member
  have newStart := isStart_moved covers same start
  have newTarget := isStart_moved covers same target
  have started := startFlags_iff.2 newStart.symm
  have aimed := startFlags_iff.2 newTarget.symm
  rcases stop with stop | stop
  · refine handlerIsValid_iff.2 ⟨started, aimed, .inl ?_, ?_⟩
    · rw [Handler.moved, stop, covers.stop]
    · rw [Handler.moved, stop, covers.stop]
      exact newStart.2
  · have newStop := isStart_moved covers same stop
    obtain ⟨first, one, startIs⟩ := start
    obtain ⟨second, other, stopIs⟩ := stop
    rw [← startIs, ← stopIs] at order
    have newOrder := covers.move_lt_move same proper.tiles one other order
    rw [startIs, stopIs] at newOrder
    exact handlerIsValid_iff.2 ⟨started, aimed, .inr (startFlags_iff.2 newStop.symm), newOrder⟩

theorem Proper.reads_bytecode (proper : code.Proper depth) (covers : layout.Covers code operands)
    (refers : List.Forall₂ (fun placed operand => placed.instruction.Refers pool operand)
      code.instructions operands) {bytecode : Bytes}
    (written : code.bytecode operands layout = .ok bytecode) :
    readInstructions pool layout.length layout.length 0 bytecode =
        .ok (code.moved operands layout).instructions ∧
      bytecode.length = layout.length := by
  have same := refers.length_eq.symm
  have each : ∀ item ∈ (code.instructions.zip operands).zip layout.starts, ∀ bytes,
      item.1.1.instruction.write layout.move item.2 item.1.2 = .ok bytes →
        Reads (Instruction.read pool layout.length item.2) bytes
            (item.1.1.instruction.moved layout.move item.1.2) ∧
          bytes.length = (item.1.1.instruction.moved layout.move item.1.2).size item.2 := by
    rintro ⟨⟨placed, operand⟩, start⟩ member bytes here
    have inside := (List.of_mem_zip member).1
    have oldMember := (List.of_mem_zip inside).1
    have refers : placed.instruction.Refers pool operand :=
      (List.forall₂_iff_zip.1 refers).2 inside
    have isNew : (⟨start, placed.instruction.moved layout.move operand⟩ : Placed) ∈
        (code.moved operands layout).instructions := List.mem_map.2 ⟨_, member, rfl⟩
    have fits := covers.tiles.end_le isNew
    rw [Instruction.size_moved] at fits ⊢
    refine Instruction.reads_write (proper.instructions placed oldMember) refers ?_ covers.small fits
      here
    intro target isTarget
    exact (isStart_moved covers same (proper.targets placed oldMember target isTarget)).2
  obtain ⟨parts, done, rfl⟩ := Except.map_eq_ok.1 written
  have reads : List.Forall₂ (fun bytes placed =>
      Reads (Instruction.read pool layout.length placed.offset) bytes placed.instruction ∧
        bytes.length = placed.instruction.size placed.offset) parts
      (code.moved operands layout).instructions :=
    List.forall₂_map_right_iff.2 (Except.forall₂_of_mapM each done)
  have length := length_parts covers.tiles (reads.imp fun _ _ both => both.2)
  rw [Nat.zero_add] at length
  exact ⟨readInstructions_of_parts covers.tiles reads length.le, length⟩

theorem Proper.reads_parts (proper : code.Proper depth) (covers : layout.Covers code operands)
    (refers : List.Forall₂ (fun placed operand => placed.instruction.Refers pool operand)
      code.instructions operands) {bytecode handlers attributes : Bytes}
    (written : code.bytecode operands layout = .ok bytecode)
    (readHandlers : Reads (table (readHandler pool
        (fun offset => (startFlags layout.length (code.moved operands layout).instructions).getD
          offset false) layout.length))
      handlers (code.handlers.map (Handler.moved layout.move)))
    (readAttributes : Reads (table do
        let (name, info) ← takeAttribute pool
        CodeAttribute.read pool name info)
      attributes (code.attributes.map (CodeAttribute.moved layout.move))) :
    Code.read pool (Bytes.u2 code.maxStack ++ Bytes.u2 code.maxLocals ++
      Bytes.u4 layout.length.toUInt32 ++ bytecode ++ handlers ++ attributes) =
        .ok (code.moved operands layout) := by
  have same := refers.length_eq.symm
  obtain ⟨bytecode, length⟩ := proper.reads_bytecode covers refers written
  have nonzero : layout.length ≠ 0 := by
    obtain ⟨placed, rest, instructions⟩ := List.exists_cons_of_ne_nil proper.nonempty
    have member : placed ∈ code.instructions := by simp [instructions]
    have inside := covers.move_lt_length same member
    omega
  have size : layout.length.toUInt32.toNat = layout.length := by
    have small := covers.small
    simp only [Nat.toUInt32, UInt32.toNat_ofNat']
    omega
  refine Reads.all ?_
  simp only [List.append_assoc]
  refine (Reads.u2 _).bind ((Reads.u2 _).bind ((Reads.u4 _).bind ?_))
  dsimp only
  rw [size, if_neg (by have small := covers.small; unfold maxLength; omega)]
  refine (Reads.take length).bind ((Reads.lift bytecode).skip ?_)
  refine (Reads.lift (checkTargets_eq_ok.2 (proper.moved_targets covers same))).skip ?_
  exact readHandlers.bind (readAttributes.last (.pure _))

end Layout

theorem Proper.interns_operands {code : Code} (proper : code.Proper depth)
    (within : depth ≤ ConstantPool.dynamicDepth) :
    Interns depth (code.instructions.mapM (·.instruction.operand)) fun pool operands =>
      List.Forall₂ (fun placed operand => placed.instruction.Refers pool operand) code.instructions
        operands :=
  .mapM fun placed member => Instruction.interns_operand (proper.instructions placed member) within

theorem interns_write {code : Code} (proper : code.Proper depth)
    (within : depth ≤ ConstantPool.dynamicDepth) :
    Interns depth code.write fun pool info =>
      ∃ result, Code.read pool info = .ok result ∧ code.ComesBack pool result := by
  refine (proper.interns_operands within).after fun operands here refers => ?_
  refine (Interns.lift fun layout computed _ _ => computed).after fun layout _ computed => ?_
  have same := refers.length_eq.symm
  have covers := Layout.covers_compute same proper.tiles computed
  refine (Interns.lift fun bytecode written _ _ => written).bind fun bytecode => ?_
  refine (interns_table fun handler member => interns_handler
    (proper.moved_handler covers same member)).bind fun handlers => ?_
  refine (interns_table fun item member => CodeAttribute.interns_write
    (proper.attributes item member)).bind fun attributes => ?_
  refine .pure fun pool _ readAttributes readHandlers written _ refers => ?_
  exact ⟨code.moved operands layout,
    proper.reads_parts covers refers written readHandlers readAttributes, operands, layout, refers,
    computed, rfl⟩

end Code

end ClassRenaming
