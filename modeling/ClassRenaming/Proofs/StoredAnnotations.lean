import ClassRenaming.Annotations
import ClassRenaming.Proofs.StoredConstants

/-!
Annotations are read back from their bytes. A value is read with any depth that its bytes allow,
since each level of nesting takes a byte.
-/

namespace ClassRenaming

open Reader

variable {depth : Nat}

section Operands

variable {pool : ConstantPool} {index : UInt16}

theorem reads_takeUtf8 {text : String} (named : pool.utf8 index = .ok text) :
    Reads pool.takeUtf8 (Bytes.u2 index) text :=
  (Reads.u2 _).last (.lift named)

theorem reads_takeClassName {name : String} (named : pool.className index = .ok name) :
    Reads pool.takeClassName (Bytes.u2 index) name :=
  (Reads.u2 _).last (.lift named)

theorem integer_of_entry {value : Int32} (found : pool.entry index = .ok (.integer value)) :
    pool.integer index = .ok value := by
  rw [ConstantPool.integer, found]
  rfl

theorem long_of_entry {value : Int64} (found : pool.entry index = .ok (.long value)) :
    pool.long index = .ok value := by
  rw [ConstantPool.long, found]
  rfl

theorem float_of_entry {bits : UInt32} (found : pool.entry index = .ok (.float bits)) :
    pool.float index = .ok bits := by
  rw [ConstantPool.float, found]
  rfl

theorem double_of_entry {bits : UInt64} (found : pool.entry index = .ok (.double bits)) :
    pool.double index = .ok bits := by
  rw [ConstantPool.double, found]
  rfl

end Operands

def ElementValue.ReadBack (value : ElementValue) (pool : ConstantPool) (bytes : Bytes) : Prop :=
  ∀ fuel, bytes.length ≤ fuel → Reads (ElementValue.read pool fuel) bytes value

theorem readBack_of_tagged {pool : ConstantPool} {tag : UInt8} {bytes : Bytes}
    {value : ElementValue}
    (reads : ∀ fuel, bytes.length ≤ fuel →
      Reads (ElementValue.read pool (fuel + 1)) (tag :: bytes) value) :
    value.ReadBack pool (tag :: bytes) := by
  intro fuel enough
  cases fuel with
  | zero => exact absurd enough (Nat.not_succ_le_zero _)
  | succ fuel => exact reads fuel (Nat.le_of_succ_le_succ enough)

def readElement (pool : ConstantPool) (fuel : Nat) : Reader (String × ElementValue) := do
  return (← pool.takeUtf8, ← ElementValue.read pool fuel)

mutual

theorem interns_value : ∀ value : ElementValue,
    Interns depth value.write value.ReadBack
  | .byte value => by
    refine (interns_entry (by exact trivial)).bind fun index => .pure fun pool _ found => ?_
    refine readBack_of_tagged fun fuel _ => .tagged ?_
    refine (Reads.u2 _).last ((Reads.lift (integer_of_entry found)).skip ?_)
    rw [Int8.toInt8_toInt32]
    exact .pure _
  | .char unit => by
    refine (interns_entry (by exact trivial)).bind fun index => .pure fun pool _ found => ?_
    refine readBack_of_tagged fun fuel _ => .tagged ?_
    refine (Reads.u2 _).last ((Reads.lift (integer_of_entry found)).skip ?_)
    rw [UInt32.toUInt32_toInt32, UInt16.toUInt16_toUInt32]
    exact .pure _
  | .short value => by
    refine (interns_entry (by exact trivial)).bind fun index => .pure fun pool _ found => ?_
    refine readBack_of_tagged fun fuel _ => .tagged ?_
    refine (Reads.u2 _).last ((Reads.lift (integer_of_entry found)).skip ?_)
    rw [Int16.toInt16_toInt32]
    exact .pure _
  | .int value => by
    refine (interns_entry (by exact trivial)).bind fun index => .pure fun pool _ found => ?_
    refine readBack_of_tagged fun fuel _ => .tagged ?_
    exact (Reads.u2 _).last ((Reads.lift (integer_of_entry found)).skip (.pure _))
  | .boolean value => by
    refine (interns_entry (by exact trivial)).bind fun index => .pure fun pool _ found => ?_
    refine readBack_of_tagged fun fuel _ => .tagged ?_
    refine (Reads.u2 _).last ((Reads.lift (integer_of_entry found)).skip ?_)
    cases value <;> exact .pure _
  | .long value => by
    refine (interns_entry (by exact trivial)).bind fun index => .pure fun pool _ found => ?_
    refine readBack_of_tagged fun fuel _ => .tagged ?_
    exact (Reads.u2 _).last ((Reads.lift (long_of_entry found)).skip (.pure _))
  | .float bits => by
    refine (interns_entry (by exact trivial)).bind fun index => .pure fun pool _ found => ?_
    refine readBack_of_tagged fun fuel _ => .tagged ?_
    exact (Reads.u2 _).last ((Reads.lift (float_of_entry found)).skip (.pure _))
  | .double bits => by
    refine (interns_entry (by exact trivial)).bind fun index => .pure fun pool _ found => ?_
    refine readBack_of_tagged fun fuel _ => .tagged ?_
    exact (Reads.u2 _).last ((Reads.lift (double_of_entry found)).skip (.pure _))
  | .string text => by
    refine (interns_utf8 _).bind fun index => .pure fun pool _ named => ?_
    exact readBack_of_tagged fun fuel _ => .tagged ((reads_takeUtf8 named).last (.pure _))
  | .enumConstant descriptor name => by
    refine (interns_utf8 _).bind fun first => ?_
    refine (interns_utf8 _).bind fun second => .pure fun pool _ named typed => ?_
    refine readBack_of_tagged fun fuel _ => .tagged ((Reads.u2 _).bind ((Reads.u2 _).last ?_))
    exact (Reads.lift typed).skip ((Reads.lift named).skip (.pure _))
  | .classLiteral descriptor => by
    refine (interns_utf8 _).bind fun index => .pure fun pool _ named => ?_
    exact readBack_of_tagged fun fuel _ => .tagged ((reads_takeUtf8 named).last (.pure _))
  | .nested descriptor elements => by
    rw [ElementValue.write]
    refine (interns_utf8 _).bind fun index => ?_
    refine (Interns.lift fun count counts _ _ => counts).bind fun count => ?_
    refine (interns_elements elements).bind fun bytes => ?_
    refine .pure fun pool _ each counts typed => ?_
    simp only [List.cons_append, List.append_assoc]
    refine readBack_of_tagged fun fuel enough => .tagged ((reads_takeUtf8 typed).bind ?_)
    have within : bytes.length ≤ fuel := by
      simp only [List.length_append] at enough
      omega
    exact (Reads.counted counts (each fuel within)).last (.pure _)
  | .array values => by
    rw [ElementValue.write]
    refine (Interns.lift fun count counts _ _ => counts).bind fun count => ?_
    refine (interns_values values).bind fun bytes => .pure fun pool _ each counts => ?_
    simp only [List.cons_append]
    refine readBack_of_tagged fun fuel enough => .tagged ?_
    have within : bytes.length ≤ fuel := by
      simp only [List.length_append] at enough
      omega
    exact (Reads.counted counts (each fuel within)).last (.pure _)

theorem interns_elements : ∀ elements : List (String × ElementValue),
    Interns depth (ElementValue.writeElements elements) fun pool bytes =>
      ∀ fuel, bytes.length ≤ fuel →
        Reads (many elements.length (readElement pool fuel)) bytes elements
  | [] => .pure fun pool _ fuel _ => .pure _
  | (name, value) :: rest => by
    rw [ElementValue.writeElements]
    refine (interns_utf8 _).bind fun index => ?_
    refine (interns_value value).bind fun first => ?_
    refine (interns_elements rest).bind fun later => ?_
    refine .pure fun pool _ others here named fuel enough => ?_
    simp only [List.length_append] at enough
    rw [List.append_assoc]
    have element : Reads (readElement pool fuel) (Bytes.u2 index ++ first) (name, value) :=
      (reads_takeUtf8 named).bind ((here fuel (by omega)).last (.pure _))
    rw [← List.append_assoc]
    exact element.bind ((others fuel (by omega)).last (.pure _))

theorem interns_values : ∀ values : List ElementValue,
    Interns depth (ElementValue.writeValues values) fun pool bytes =>
      ∀ fuel, bytes.length ≤ fuel →
        Reads (many values.length (ElementValue.read pool fuel)) bytes values
  | [] => .pure fun pool _ fuel _ => .pure _
  | value :: rest => by
    rw [ElementValue.writeValues]
    refine (interns_value value).bind fun first => ?_
    refine (interns_values rest).bind fun later => ?_
    refine .pure fun pool _ others here fuel enough => ?_
    simp only [List.length_append] at enough
    exact (here fuel (by omega)).bind ((others fuel (by omega)).last (.pure _))

end

theorem Annotation.interns_write (item : Annotation) :
    Interns depth item.write fun pool bytes =>
      ∀ fuel, bytes.length ≤ fuel → Reads (read pool fuel) bytes item := by
  refine (interns_utf8 _).bind fun index => ?_
  refine (Interns.lift fun count counts _ _ => counts).bind fun count => ?_
  refine (interns_elements item.elements).bind fun bytes => ?_
  refine .pure fun pool _ each counts typed fuel enough => ?_
  simp only [List.length_append] at enough
  rw [List.append_assoc]
  refine (reads_takeUtf8 typed).bind ?_
  exact (Reads.counted counts (each fuel (by omega))).last (.pure _)

theorem Annotation.interns_writeTable (items : List Annotation) :
    Interns depth (writeTable items) fun pool bytes =>
      Reads (readTable pool) bytes items := by
  refine (Interns.lift fun count counts _ _ => counts).bind fun count => ?_
  refine (Interns.mapM fun item _ => item.interns_write).bind
    fun parts => ?_
  refine .pure fun pool _ each counts rest => ?_
  have enough : parts.flatten.length ≤ (count ++ parts.flatten ++ rest).length := by
    simp only [List.length_append]
    omega
  exact Reads.table counts rfl (Reads.each_within each enough) rest

theorem Annotation.reads_tables {pool : ConstantPool} {tables : List (List Annotation)}
    {parts : List Bytes} (few : tables.length ≤ 255)
    (each : List.Forall₂ (Reads (readTable pool)) parts tables) :
    Reads (do many (← u1).toNat (readTable pool)) (tables.length.toUInt8 :: parts.flatten) tables := by
  have count : tables.length.toUInt8.toNat = tables.length := Bytes.toNat_toUInt8 (by omega)
  refine .tagged ?_
  rw [count]
  exact .many each

/-! Annotations on types, whose targets may hold code offsets. -/

theorem codeOffset_eq_ok {offset : Nat} {bytes : Bytes} (done : codeOffset offset = .ok bytes) :
    ∃ word : UInt16, bytes = Bytes.u2 word ∧ word.toNat = offset := by
  unfold codeOffset at done
  split at done
  case isTrue small =>
    cases done
    exact ⟨_, rfl, Bytes.toNat_toUInt16 small⟩
  case isFalse => cases done

def TypeTarget.Matches (targetType : UInt8) : TypeTarget → Prop
  | .typeParameter _ => targetType ≤ 0x01
  | .supertype _ => targetType = 0x10
  | .typeParameterBound .. => targetType = 0x11 ∨ targetType = 0x12
  | .empty => 0x13 ≤ targetType ∧ targetType ≤ 0x15
  | .formalParameter _ => targetType = 0x16
  | .throws _ => targetType = 0x17
  | .localVariable _ => targetType = 0x40 ∨ targetType = 0x41
  | .catch _ => targetType = 0x42
  | .offset _ => 0x43 ≤ targetType ∧ targetType ≤ 0x46
  | .typeArgument .. => 0x47 ≤ targetType ∧ targetType ≤ 0x4B

theorem reads_localRange {move : Nat → Nat} {range : LocalRange} {bytes : Bytes}
    (written : range.write move = .ok bytes) : Reads LocalRange.read bytes (range.moved move) := by
  obtain ⟨first, here, written⟩ := Except.bind_eq_ok.1 written
  obtain ⟨second, there, written⟩ := Except.bind_eq_ok.1 written
  obtain ⟨start, rfl, startIs⟩ := codeOffset_eq_ok here
  obtain ⟨length, rfl, lengthIs⟩ := codeOffset_eq_ok there
  cases written
  rw [List.append_assoc, LocalRange.moved, ← lengthIs, ← startIs]
  exact (Reads.u2 _).bind ((Reads.u2 _).bind ((Reads.u2 _).last (.pure _)))

def TypeTarget.reader : TypeTarget → Reader TypeTarget
  | .typeParameter _ => do return .typeParameter (← u1)
  | .supertype _ => do return .supertype (← u2)
  | .typeParameterBound .. => do return .typeParameterBound (← u1) (← u1)
  | .empty => return .empty
  | .formalParameter _ => do return .formalParameter (← u1)
  | .throws _ => do return .throws (← u2)
  | .localVariable _ => do return .localVariable (← table LocalRange.read)
  | .catch _ => do return .catch (← u2)
  | .offset _ => do return .offset (← u2).toNat
  | .typeArgument .. => do return .typeArgument (← u2).toNat (← u1)

theorem TypeTarget.read_eq_reader {targetType : UInt8} {target : TypeTarget}
    (goes : target.Matches targetType) : TypeTarget.read targetType = target.reader := by
  unfold TypeTarget.read
  cases target <;> simp only [Matches] at goes <;> simp only [reader] <;> grind

theorem reads_typeTarget {move : Nat → Nat} {targetType : UInt8} {target : TypeTarget}
    {bytes : Bytes} (goes : target.Matches targetType) (written : target.write move = .ok bytes) :
    Reads (TypeTarget.read targetType) bytes (target.moved move) := by
  rw [TypeTarget.read_eq_reader goes]
  cases target with
  | typeParameter index | formalParameter index =>
    cases written
    exact (Reads.u1 _).last (.pure _)
  | supertype index | throws index | «catch» handler =>
    cases written
    exact (Reads.u2 _).last (.pure _)
  | typeParameterBound parameter bound =>
    cases written
    exact (Reads.u1 _).bind ((Reads.u1 _).last (.pure _))
  | empty =>
    cases written
    exact .pure _
  | localVariable ranges =>
    obtain ⟨count, counts, written⟩ := Except.bind_eq_ok.1 written
    obtain ⟨parts, each, written⟩ := Except.bind_eq_ok.1 written
    cases written
    refine (Reads.table counts (by simp) ?_).last (.pure _)
    rw [List.forall₂_map_right_iff]
    exact Except.forall₂_of_mapM (fun range _ bytes => reads_localRange) each
  | offset position =>
    obtain ⟨word, rfl, same⟩ := codeOffset_eq_ok written
    rw [TypeTarget.moved, ← same]
    exact (Reads.u2 _).last (.pure _)
  | typeArgument position index =>
    obtain ⟨first, here, written⟩ := Except.bind_eq_ok.1 written
    obtain ⟨word, rfl, same⟩ := codeOffset_eq_ok here
    cases written
    rw [TypeTarget.moved, ← same]
    exact (Reads.u2 _).bind ((Reads.u1 _).last (.pure _))

theorem reads_path (path : List (UInt8 × UInt8)) :
    Reads (many path.length do return (← Reader.u1, ← Reader.u1))
      (path.flatMap fun (kind, index) => [kind, index]) path := by
  induction path with
  | nil => exact .pure _
  | cons step path ih =>
    have first : Reads (do return (← Reader.u1, ← Reader.u1)) [step.1, step.2] step :=
      .tagged (.tagged (.pure _))
    exact first.bind (ih.last (.pure _))

theorem TypeAnnotation.interns_write {move : Nat → Nat} {item : TypeAnnotation}
    (goes : item.target.Matches item.targetType) :
    Interns depth (item.write move) fun pool bytes =>
      ∀ fuel, bytes.length ≤ fuel → Reads (read pool fuel) bytes (item.moved move) := by
  refine (Interns.lift fun target written _ _ => written).bind fun target => ?_
  split
  · exact .throw
  case isFalse short =>
    refine item.value.interns_write.bind fun value => ?_
    refine .pure fun pool _ each written fuel enough => ?_
    simp only [List.length_append, List.length_cons] at enough
    simp only [List.cons_append, List.append_assoc]
    have steps : item.path.length.toUInt8.toNat = item.path.length :=
      Bytes.toNat_toUInt8 (by omega)
    refine .tagged ((reads_typeTarget goes written).bind ?_)
    refine (Reads.u1 _).bind ?_
    rw [steps]
    exact (reads_path item.path).bind ((each fuel (by omega)).last (.pure _))

theorem TypeAnnotation.interns_writeTable {move : Nat → Nat} {items : List TypeAnnotation}
    (goes : ∀ item ∈ items, item.target.Matches item.targetType) :
    Interns depth (writeTable move items) fun pool bytes =>
      Reads (readTable pool) bytes (items.map (moved move)) := by
  refine (Interns.lift fun count counts _ _ => counts).bind fun count => ?_
  refine (Interns.mapM fun item member =>
    interns_write (goes item member)).bind fun parts => ?_
  refine .pure fun pool _ each counts rest => ?_
  have enough : parts.flatten.length ≤ (count ++ parts.flatten ++ rest).length := by
    simp only [List.length_append]
    omega
  have inside := Reads.each_within each enough
  exact Reads.table counts (List.length_map _) (List.forall₂_map_right_iff.2 inside) rest

/-- Annotations outside of code hold no code offsets, so nothing in them moves. -/
theorem TypeAnnotation.moved_id (item : TypeAnnotation) : item.moved id = item := by
  have ranges : LocalRange.moved id = id := by
    funext range
    simp [LocalRange.moved]
  obtain ⟨targetType, target, path, value⟩ := item
  cases target <;> simp [moved, TypeTarget.moved, ranges]

end ClassRenaming
