import ClassRenaming.ClassFile.Reading
import ClassRenaming.Proofs.Gives
import ClassRenaming.Proofs.MappedBack
import ClassRenaming.Proofs.StoredAttributes

/-!
Reading with another pool that says the same but for its texts gives the same, with the texts mapped.
Only the names of attributes decide how something is read, so the map must keep the names that are
understood apart from all others.
-/

namespace ClassRenaming

/-- Whatever the first reader gives, the second gives it mapped. -/
def Retells {α β : Type} (g : α → β) (first : Reader α) (second : Reader β) : Prop :=
  ∀ ⦃bytes rest : Bytes⦄ ⦃value : α⦄, first bytes = .ok (value, rest) →
    second bytes = .ok (g value, rest)

namespace Retells

open Reader

variable {α β γ δ : Type} {g : α → β} {h : γ → δ} {first : Reader α} {second : Reader β}

theorem pure {value : α} {image : β} (same : g value = image) :
    Retells g (pure value) (pure image) := by
  intro bytes rest found done
  obtain ⟨rfl, rfl⟩ := pure_eq_ok.1 done
  rw [same]
  rfl

theorem same (reader : Reader α) : Retells id reader reader := fun _ _ _ done => done

theorem ofGives {g : α → α} (fixed : Gives first fun _ value => g value = value) :
    Retells g first first := by
  intro bytes rest value done
  rw [fixed done]
  exact done

theorem throw {cause : FormatError} : Retells g (throw cause) second := by
  intro bytes rest value done
  cases done

theorem lift {action : Except FormatError α} {image : Except FormatError β}
    (each : ∀ value, action = .ok value → image = .ok (g value)) :
    Retells g (liftM action) (liftM image) := by
  intro bytes rest value done
  obtain ⟨here, rfl⟩ := lift_eq_ok.1 done
  exact lift_eq_ok.2 ⟨each value here, rfl⟩

theorem bind {next : α → Reader γ} {other : β → Reader δ} (start : Retells g first second)
    (later : ∀ value, Retells h (next value) (other (g value))) :
    Retells h (first >>= next) (second >>= other) := by
  intro bytes rest value done
  obtain ⟨found, middle, here, there⟩ := bind_eq_ok.1 done
  exact bind_eq_ok.2 ⟨g found, middle, start here, later found there⟩

theorem both {reader : Reader α} {next : α → Reader γ} {other : α → Reader δ}
    (later : ∀ value, Retells h (next value) (other value)) :
    Retells h (reader >>= next) (reader >>= other) :=
  (same reader).bind later

theorem many (start : Retells g first second) (count : Nat) :
    Retells (List.map g) (Reader.many count first) (Reader.many count second) := by
  induction count with
  | zero => exact .pure rfl
  | succ count ih => exact start.bind fun value => ih.bind fun values => .pure rfl

theorem table (start : Retells g first second) :
    Retells (List.map g) (Reader.table first) (Reader.table second) :=
  both fun count => start.many count.toNat

theorem all {leftover : Nat → FormatError} {bytes : Bytes} {value : α}
    (start : Retells g first second) (done : first.all bytes leftover = .ok value) :
    second.all bytes leftover = .ok (g value) :=
  all_eq_ok.2 (start (all_eq_ok.1 done))

theorem whole {f : α → γ} {f' : β → δ} {leftover : Nat → FormatError} {bytes : Bytes} {value : γ}
    (start : Retells g first second) (fits : ∀ value, h (f value) = f' (g value))
    (done : f <$> first.all bytes leftover = .ok value) :
    f' <$> second.all bytes leftover = .ok (h value) := by
  obtain ⟨found, here, rfl⟩ := Except.map_eq_ok.1 done
  rw [start.all here, fits]
  rfl

end Retells

theorem Reads.retold {α β : Type} {g : α → β} {first : Reader α} {second : Reader β} {bytes : Bytes}
    {value : α} (reads : Reads first bytes value) (retells : Retells g first second) :
    Reads second bytes (g value) :=
  fun rest => retells (reads rest)

open Reader

variable {f : String → String} {pool other : ConstantPool}

namespace ConstantPool.Retold

variable (retold : pool.Retold f other)

include retold

theorem takeUtf8 : Retells f pool.takeUtf8 other.takeUtf8 :=
  .both fun _ => .lift fun _ found => retold.utf8 found

theorem takeClassName : Retells f pool.takeClassName other.takeClassName :=
  .both fun _ => .lift fun _ found => retold.className found

theorem takeUtf8? : Retells (Option.map f) pool.takeUtf8? other.takeUtf8? :=
  .both fun _ => .lift fun _ found => retold.utf8? found

theorem takeClassName? : Retells (Option.map f) pool.takeClassName? other.takeClassName? :=
  .both fun _ => .lift fun _ found => retold.className? found

end ConstantPool.Retold

variable (retold : pool.Retold f other)

include retold

theorem retells_elements {depth : Nat}
    (value : Retells (ElementValue.mapTexts (.all f)) (ElementValue.read pool depth)
      (ElementValue.read other depth)) :
    Retells (ElementValue.mapTextsElements (.all f))
      (table do return (← pool.takeUtf8, ← ElementValue.read pool depth))
      (table do return (← other.takeUtf8, ← ElementValue.read other depth)) := by
  have pair : Retells (Prod.map f (ElementValue.mapTexts (.all f)))
      (do return (← pool.takeUtf8, ← ElementValue.read pool depth))
      (do return (← other.takeUtf8, ← ElementValue.read other depth)) :=
    retold.takeUtf8.bind fun name => value.bind fun value => .pure rfl
  rw [funext (ElementValue.mapTextsElements_eq_map (.all f))]
  exact pair.table

theorem retells_value (depth : Nat) :
    Retells (ElementValue.mapTexts (.all f)) (ElementValue.read pool depth)
      (ElementValue.read other depth) := by
  induction depth with
  | zero => exact .throw
  | succ depth ih =>
    refine .both fun tag => ?_
    generalize Char.ofNat tag.toNat = letter
    split
    · exact .both fun _ => (Retells.lift fun _ => retold.integer).bind fun _ => .pure rfl
    · exact .both fun _ => (Retells.lift fun _ => retold.integer).bind fun _ => .pure rfl
    · exact .both fun _ => (Retells.lift fun _ => retold.integer).bind fun _ => .pure rfl
    · exact .both fun _ => (Retells.lift fun _ => retold.integer).bind fun _ => .pure rfl
    · exact .both fun _ => (Retells.lift fun _ => retold.integer).bind fun _ => .pure rfl
    · exact .both fun _ => (Retells.lift fun _ => retold.double).bind fun _ => .pure rfl
    · exact .both fun _ => (Retells.lift fun _ => retold.float).bind fun _ => .pure rfl
    · exact .both fun _ => (Retells.lift fun _ => retold.long).bind fun _ => .pure rfl
    · exact retold.takeUtf8.bind fun _ => .pure rfl
    · refine .both fun _ => .both fun _ => ?_
      exact (Retells.lift fun _ => retold.utf8).bind fun _ =>
        (Retells.lift fun _ => retold.utf8).bind fun _ => .pure rfl
    · exact retold.takeUtf8.bind fun _ => .pure rfl
    · exact retold.takeUtf8.bind fun _ => (retells_elements retold ih).bind fun _ => .pure rfl
    · refine ih.table.bind fun values => .pure ?_
      rw [ElementValue.mapTexts, ElementValue.mapTextsList_eq_map]
    · exact .throw

theorem Annotation.retells_read (depth : Nat) :
    Retells (mapTexts (.all f)) (read pool depth) (read other depth) :=
  retold.takeUtf8.bind fun _ =>
    (retells_elements retold (retells_value retold depth)).bind fun _ => .pure rfl

theorem Annotation.retells_readTable :
    Retells (List.map (mapTexts (.all f))) (readTable pool) (readTable other) :=
  fun bytes _ _ done => (retells_read retold bytes.length).table done

theorem Annotation.retells_readTables :
    Retells (List.map (List.map (mapTexts (.all f)))) (do many (← u1).toNat (readTable pool))
      (do many (← u1).toNat (readTable other)) :=
  .both fun _ => (retells_readTable retold).many _

theorem TypeAnnotation.retells_read (depth : Nat) :
    Retells (mapTexts (.all f)) (read pool depth) (read other depth) :=
  .both fun _ => .both fun _ => .both fun _ => .both fun _ =>
    Annotation.retells_read retold depth |>.bind fun _ => .pure rfl

theorem TypeAnnotation.retells_readTable :
    Retells (List.map (mapTexts (.all f))) (readTable pool) (readTable other) :=
  fun bytes _ _ done => (retells_read retold bytes.length).table done

theorem retells_verificationType :
    Retells (VerificationType.mapTexts (.all f)) (VerificationType.read pool)
      (VerificationType.read other) := by
  refine .both fun tag => ?_
  split
  case h_8 => exact retold.takeClassName.bind fun _ => .pure rfl
  case h_9 => exact .both fun _ => .pure rfl
  case h_10 => exact .throw
  all_goals exact .pure rfl

theorem retells_frame :
    Retells (Frame.mapTexts (.all f)) (Frame.readRelative pool) (Frame.readRelative other) := by
  have type := retells_verificationType retold
  refine .both fun tag => ?_
  by_cases same : tag ≤ 63
  · rw [if_pos same, if_pos same]
    exact .pure rfl
  rw [if_neg same, if_neg same]
  by_cases sameWithItem : tag ≤ 127
  · rw [if_pos sameWithItem, if_pos sameWithItem]
    exact type.bind fun _ => .pure rfl
  rw [if_neg sameWithItem, if_neg sameWithItem]
  by_cases reserved : tag ≤ 246
  · rw [if_pos reserved]
    exact .throw
  rw [if_neg reserved, if_neg reserved]
  refine .both fun distance => ?_
  by_cases farItem : tag = 247
  · rw [if_pos farItem, if_pos farItem]
    exact type.bind fun _ => .pure rfl
  rw [if_neg farItem, if_neg farItem]
  by_cases chop : tag ≤ 250
  · rw [if_pos chop, if_pos chop]
    exact .pure rfl
  rw [if_neg chop, if_neg chop]
  by_cases far : tag = 251
  · rw [if_pos far, if_pos far]
    exact .pure rfl
  rw [if_neg far, if_neg far]
  by_cases append : tag ≤ 254
  · rw [if_pos append, if_pos append]
    exact (type.many _).bind fun _ => .pure rfl
  rw [if_neg append, if_neg append]
  exact type.table.bind fun _ => type.table.bind fun _ => .pure rfl

omit retold in
theorem absolute_map_mapTexts (base : Nat) (frames : List Frame) :
    Frame.absolute base (frames.map (Frame.mapTexts (.all f))) =
      (Frame.absolute base frames).map (Frame.mapTexts (.all f)) := by
  induction frames generalizing base with
  | nil => rfl
  | cons frame frames ih => exact congrArg _ (ih _)

theorem retells_frameTable :
    Retells (List.map (Frame.mapTexts (.all f))) (Frame.readTable pool) (Frame.readTable other) :=
  (retells_frame retold).table.bind fun frames => .pure (absolute_map_mapTexts 0 frames).symm

omit retold in
theorem Instruction.branchTargets_mapTexts (m : TextMap) (instruction : Instruction) :
    (instruction.mapTexts m).branchTargets = instruction.branchTargets := by
  cases instruction <;> rfl

omit retold in
theorem retells_tableSwitch (length offset : Nat) :
    Retells (Instruction.mapTexts (.all f)) (Instruction.readTableSwitch length offset)
      (Instruction.readTableSwitch length offset) := by
  refine .ofGives (Gives.any.bind fun _ _ _ => Gives.any.bind fun _ _ _ => ?_)
  refine Gives.any.bind fun _ low _ => Gives.any.bind fun _ high _ => ?_
  dsimp only
  split
  · exact .throw
  · refine Gives.any.bind fun _ _ _ => ?_
    split
    · exact .throw
    · exact Gives.any.bind fun _ _ _ => .pure rfl

omit retold in
theorem retells_lookupSwitch (length offset : Nat) :
    Retells (Instruction.mapTexts (.all f)) (Instruction.readLookupSwitch length offset)
      (Instruction.readLookupSwitch length offset) := by
  refine .ofGives (Gives.any.bind fun _ _ _ => Gives.any.bind fun _ _ _ => ?_)
  refine Gives.any.bind fun _ count _ => Gives.any.bind fun _ _ _ => ?_
  dsimp only
  split
  · exact .throw
  · exact Gives.any.bind fun _ _ _ => .pure rfl

omit retold in
theorem retells_wide (offset : Nat) :
    Retells (Instruction.mapTexts (.all f)) (Instruction.readWide offset)
      (Instruction.readWide offset) := by
  refine .ofGives (Gives.any.bind fun _ opcode _ => ?_)
  split
  · exact Gives.any.bind fun _ _ _ => .pure rfl
  · exact Gives.any.bind fun _ _ _ => Gives.any.bind fun _ _ _ => .pure rfl
  · exact .throw

theorem retells_instruction (length offset : Nat) :
    Retells (Instruction.mapTexts (.all f)) (Instruction.read pool length offset)
      (Instruction.read other length offset) := by
  have member (index : UInt16) : Retells (Prod.map (MemberRef.mapTexts (.all f)) id)
      (liftM (pool.memberRef index)) (liftM (other.memberRef index)) :=
    .lift fun _ found => retold.memberRef found
  refine .both fun opcode => ?_
  cases Opcode.format opcode with
  | none => exact .throw
  | some format =>
    cases format with
    | none => exact .pure rfl
    | byte | short | «local» | newArray => exact .both fun _ => .pure rfl
    | increment => exact .both fun _ => .both fun _ => .pure rfl
    | branch => exact .both fun _ => .pure rfl
    | farBranch => exact .both fun _ => .pure rfl
    | narrowConstant | wideConstant =>
      exact .both fun _ => (Retells.lift fun _ => retold.constant).bind fun _ => .pure rfl
    | tableSwitch => exact retells_tableSwitch length offset
    | lookupSwitch => exact retells_lookupSwitch length offset
    | wide => exact retells_wide offset
    | field =>
      exact .both fun _ => (member _).bind fun _ => .pure rfl
    | method =>
      exact .both fun _ => (member _).bind fun _ => .pure rfl
    | interfaceMethod =>
      exact .both fun _ => (member _).bind fun _ => .both fun _ => .pure rfl
    | invokeDynamic =>
      refine .both fun index => ?_
      have site : Retells (Prod.map f (Prod.map f (mapBootstrapTexts (.all f))))
          (liftM (pool.invokeDynamic index)) (liftM (other.invokeDynamic index)) :=
        .lift fun _ found => retold.invokeDynamic found
      exact site.bind fun _ => .both fun _ => .pure rfl
    | type => exact retold.takeClassName.bind fun _ => .pure rfl
    | multiArray => exact retold.takeClassName.bind fun _ => .both fun _ => .pure rfl

theorem retells_localVariable :
    Retells (LocalVariable.mapTexts f f) (LocalVariable.read pool) (LocalVariable.read other) :=
  .both fun _ => .both fun _ => retold.takeUtf8.bind fun _ => retold.takeUtf8.bind fun _ =>
    .both fun _ => .pure rfl

theorem retells_takeAttribute :
    Retells (Prod.map f id) (takeAttribute pool) (takeAttribute other) :=
  .both fun _ => .both fun _ => .both fun _ =>
    (Retells.lift fun _ => retold.utf8).bind fun _ => .pure rfl

/-- The map keeps the names of attributes that are understood, and no other name becomes one. -/
structure KeepsKnown (f : String → String) : Prop where
  known : ∀ name ∈ Attribute.known ++ CodeAttribute.known, f name = name
  apart : ∀ name, f name ∈ Attribute.known ++ CodeAttribute.known → f name = name

omit retold in
theorem known_small {name : String} (member : name ∈ Attribute.known ++ CodeAttribute.known) :
    ∀ c ∈ name.toList, c.toNat < 0x10000 := by
  have checked : ((Attribute.known ++ CodeAttribute.known).all fun name =>
      name.toList.all fun c => decide (c.toNat < 0x10000)) = true := by
    decide +kernel
  simp only [List.all_eq_true, decide_eq_true_eq] at checked
  exact checked name member

omit retold in
theorem known_storable : AllStorable (Attribute.known ++ CodeAttribute.known) :=
  fun _ member => ModifiedUtf8.storable_of_small (known_small member)

omit retold in
theorem keepsKnown_of_near (near : ∀ text, f text = text ∨ f text = ModifiedUtf8.recoded text) :
    KeepsKnown f := by
  refine ⟨fun name member => ?_, fun name member => ?_⟩
  · rcases near name with same | recoded
    · exact same
    · rw [recoded, ModifiedUtf8.recoded_eq_self (known_storable name member)]
  · rcases near name with same | recoded
    · exact same
    · rw [recoded] at member ⊢
      have joins := ModifiedUtf8.joins_recoded name
      exact (String.toList_inj.1 (joins.eq_of_small (known_small member))).symm

variable (keeps : KeepsKnown f)

include keeps

theorem CodeAttribute.read_retold {name : String} {info : Bytes} {item : CodeAttribute}
    (done : CodeAttribute.read pool name info = .ok item) :
    CodeAttribute.read other (f name) info = .ok (item.mapTexts (.all f)) := by
  by_cases isKnown : name ∈ known
  · rw [keeps.known name (List.mem_append_right _ isKnown)]
    unfold CodeAttribute.read at done ⊢
    split at done
    · exact (retells_frameTable retold).whole (fun _ => rfl) done
    · exact (Retells.same _).whole (fun _ => rfl) done
    · exact (retells_localVariable retold).table.whole (fun _ => rfl) done
    · exact (retells_localVariable retold).table.whole (fun _ => rfl) done
    · exact TypeAnnotation.retells_readTable retold |>.whole (fun _ => rfl) done
    · exact TypeAnnotation.retells_readTable retold |>.whole (fun _ => rfl) done
    · simp [known] at isKnown
      grind
  · have stays : f name ∉ known := fun member =>
      isKnown (keeps.apart name (List.mem_append_right _ member) ▸ member)
    rw [read_unknown isKnown] at done
    cases done
    exact read_unknown stays

namespace Code

omit retold keeps in
theorem startFlags_map (m : TextMap) (length : Nat) (instructions : List Placed) :
    startFlags length (instructions.map (Placed.mapTexts m)) = startFlags length instructions := by
  unfold startFlags
  generalize Array.replicate length false = flags
  induction instructions generalizing flags with
  | nil => rfl
  | cons placed rest ih => exact ih _

omit retold keeps in
theorem checkTargets_map (m : TextMap) (isStart : Nat → Bool) (instructions : List Placed) :
    checkTargets isStart (instructions.map (Placed.mapTexts m)) =
      checkTargets isStart instructions := by
  unfold checkTargets
  induction instructions with
  | nil => rfl
  | cons placed rest ih =>
    rw [List.map_cons, List.forM, List.forM, ih, Placed.mapTexts, Instruction.branchTargets_mapTexts]

omit keeps in
theorem readInstructions_retold {length steps offset : Nat} {bytes : Bytes}
    {instructions : List Placed}
    (done : readInstructions pool length steps offset bytes = .ok instructions) :
    readInstructions other length steps offset bytes =
      .ok (instructions.map (Placed.mapTexts (.all f))) := by
  induction steps generalizing offset bytes instructions with
  | zero =>
    cases bytes with
    | nil =>
      cases done
      rfl
    | cons _ _ => cases done
  | succ steps ih =>
    cases bytes with
    | nil =>
      cases done
      rfl
    | cons first bytes =>
      unfold readInstructions at done ⊢
      split at done
      · cases done
      case h_2 instruction rest here =>
        split at done
        · cases done
        case h_2 others there =>
          cases done
          simp only [retells_instruction retold length offset here, Instruction.size_mapTexts, ih there]
          rfl

omit keeps in
theorem retells_handler (isStart : Nat → Bool) (length : Nat) :
    Retells (Handler.mapTexts (.all f)) (readHandler pool isStart length)
      (readHandler other isStart length) := by
  refine .both fun _ => .both fun _ => .both fun _ => retold.takeClassName?.bind fun _ => ?_
  dsimp only
  split
  · exact .throw
  case isFalse valid =>
    rw [if_neg (by exact valid)]
    exact .pure rfl

theorem retells_body : Retells (Code.mapTexts (.all f)) (readBody pool) (readBody other) := by
  refine .both fun maxStack => .both fun maxLocals => .both fun length => ?_
  dsimp only
  split
  · exact .throw
  case isFalse valid =>
    refine .both fun bytecode => ?_
    have instructions : Retells (List.map (Placed.mapTexts (.all f)))
        (liftM (readInstructions pool length.toNat length.toNat 0 bytecode))
        (liftM (readInstructions other length.toNat length.toNat 0 bytecode)) :=
      .lift fun _ found => readInstructions_retold retold found
    refine instructions.bind fun placed => ?_
    rw [startFlags_map, checkTargets_map]
    refine .both fun _ => (retells_handler retold _ _).table.bind fun handlers => ?_
    have item : Retells (CodeAttribute.mapTexts (.all f))
        (do
          let part ← takeAttribute pool
          CodeAttribute.read pool part.1 part.2)
        (do
          let part ← takeAttribute other
          CodeAttribute.read other part.1 part.2) :=
      (retells_takeAttribute retold).bind fun _ =>
        .lift fun _ found => CodeAttribute.read_retold retold keeps found
    exact item.table.bind fun _ => .pure rfl

theorem read_retold {info : Bytes} {code : Code} (done : Code.read pool info = .ok code) :
    Code.read other info = .ok (code.mapTexts (.all f)) :=
  (retells_body retold keeps).all done

end Code

omit keeps in
theorem retells_innerClass :
    Retells (InnerClass.mapTexts (.all f)) (InnerClass.read pool) (InnerClass.read other) :=
  retold.takeClassName.bind fun _ => retold.takeClassName?.bind fun _ =>
    retold.takeUtf8?.bind fun _ => .both fun _ => .pure rfl

omit keeps in
theorem retells_valueWhole :
    Retells (ElementValue.mapTexts (.all f)) (ElementValue.readWhole pool)
      (ElementValue.readWhole other) :=
  fun bytes _ _ done => retells_value retold (bytes.length + 1) done

omit keeps in
theorem retells_nameAndType? :
    Retells (Option.map (Prod.map f f)) (takeNameAndType? pool) (takeNameAndType? other) := by
  refine .both fun index => ?_
  split
  · exact .pure rfl
  · have pair : Retells (Prod.map f f) (liftM (pool.nameAndType index))
        (liftM (other.nameAndType index)) := .lift fun _ found => retold.nameAndType found
    exact pair.bind fun _ => .pure rfl

namespace Attribute

theorem read_retold {depth : Nat} {name : String} {info : Bytes} {item : Attribute}
    (kind : Signature.Kind) (done : Attribute.read pool depth name info = .ok item) :
    Attribute.read other depth (f name) info = .ok (item.mapTexts (.all f) kind) := by
  induction depth generalizing name info item kind with
  | zero => cases done
  | succ depth ih =>
    by_cases isKnown : name ∈ known
    · rw [keeps.known name (List.mem_append_left _ isKnown)]
      have parameters := Annotation.retells_readTables retold
      unfold Attribute.read at done ⊢
      split at done
      · exact retold.takeUtf8.whole (fun _ => rfl) done
      · have constant : Retells (Constant.mapTexts (.all f)) (do pool.constant (← u2))
            (do other.constant (← u2)) := .both fun _ => .lift fun _ found => retold.constant found
        exact constant.whole (fun constant => by cases constant <;> rfl) done
      · exact retold.takeClassName.table.whole (fun _ => rfl) done
      · exact Annotation.retells_readTable retold |>.whole (fun _ => rfl) done
      · exact Annotation.retells_readTable retold |>.whole (fun _ => rfl) done
      · exact parameters.whole (fun _ => rfl) done
      · exact parameters.whole (fun _ => rfl) done
      · exact TypeAnnotation.retells_readTable retold |>.whole (fun _ => rfl) done
      · exact TypeAnnotation.retells_readTable retold |>.whole (fun _ => rfl) done
      · exact (retells_valueWhole retold).whole (fun _ => rfl) done
      · have attributes : Retells (List.map (Attribute.mapTexts (.all f) .field))
            (table do
              let part ← takeAttribute pool
              Attribute.read pool depth part.1 part.2)
            (table do
              let part ← takeAttribute other
              Attribute.read other depth part.1 part.2) :=
          ((retells_takeAttribute retold).bind fun _ => .lift fun _ found => ih .field found).table
        have component : Retells (RecordComponent.mapTexts (.all f))
            (do
              let name ← pool.takeUtf8
              let descriptor ← pool.takeUtf8
              let attributes ← table do
                let part ← takeAttribute pool
                Attribute.read pool depth part.1 part.2
              return { name, descriptor, attributes })
            (do
              let name ← other.takeUtf8
              let descriptor ← other.takeUtf8
              let attributes ← table do
                let part ← takeAttribute other
                Attribute.read other depth part.1 part.2
              return { name, descriptor, attributes }) :=
          retold.takeUtf8.bind fun _ => retold.takeUtf8.bind fun _ => attributes.bind fun _ => .pure rfl
        refine component.table.whole (fun components => ?_) done
        rw [Attribute.mapTexts, Attribute.mapTextsComponents_eq_map]
      · exact (retells_innerClass retold).table.whole (fun _ => rfl) done
      · have around : Retells (Attribute.mapTexts (.all f) kind)
            (do return .enclosingMethod (← pool.takeClassName) (← takeNameAndType? pool))
            (do return .enclosingMethod (← other.takeClassName) (← takeNameAndType? other)) :=
          retold.takeClassName.bind fun _ => (retells_nameAndType? retold).bind fun _ => .pure rfl
        exact around.all done
      · exact retold.takeClassName.whole (fun _ => rfl) done
      · exact retold.takeClassName.table.whole (fun _ => rfl) done
      · exact retold.takeClassName.table.whole (fun _ => rfl) done
      · obtain ⟨body, here, rfl⟩ := Except.map_eq_ok.1 done
        rw [Code.read_retold retold keeps here]
        rfl
      · cases done
        rfl
      · simp [known] at isKnown
        grind
    · have stays : f name ∉ known := fun member =>
        isKnown (keeps.apart name (List.mem_append_left _ member) ▸ member)
      rw [read_unknown isKnown] at done
      cases done
      exact read_unknown stays

end Attribute

theorem RawAttribute.decode_retold {raw : RawAttribute} {item : Attribute} (kind : Signature.Kind)
    (done : raw.decode pool = .ok item) : raw.decode other = .ok (item.mapTexts (.all f) kind) := by
  obtain ⟨name, named, done⟩ := Except.bind_eq_ok.1 done
  exact Except.bind_eq_ok.2
    ⟨f name, retold.utf8 named, Attribute.read_retold retold keeps kind done⟩

omit retold keeps in
def RawMember.mapTexts (f : String → String) (raw : RawMember) : RawMember :=
  { raw with name := f raw.name, descriptor := f raw.descriptor }

omit keeps in
theorem retells_rawMember :
    Retells (RawMember.mapTexts f) (RawMember.read pool) (RawMember.read other) :=
  .both fun _ => retold.takeUtf8.bind fun _ => retold.takeUtf8.bind fun _ => .both fun _ => .pure rfl

theorem RawMember.decode_retold {raw : RawMember} {member : Member} (kind : Signature.Kind)
    (done : raw.decode pool = .ok member) :
    (raw.mapTexts f).decode other = .ok (member.mapTexts (.all f) kind) := by
  obtain ⟨attributes, each, done⟩ := Except.bind_eq_ok.1 done
  cases done
  refine Except.bind_eq_ok.2 ⟨_, Except.mapM_of_each (g := Attribute.mapTexts (.all f) kind)
    (fun item _ _ here => item.decode_retold retold keeps kind here) each, ?_⟩
  rw [Member.mapTexts, Attribute.mapTextsList_eq_map]
  rfl

theorem RawMember.mapM_retold (kind : Signature.Kind) {raws : List RawMember}
    {members : List Member} (done : raws.mapM (RawMember.decode pool) = .ok members) :
    (raws.map (RawMember.mapTexts f)).mapM (RawMember.decode other) =
      .ok (members.map (Member.mapTexts (.all f) kind)) := by
  rw [List.mapM_map]
  exact Except.mapM_of_each (fun raw _ _ here => raw.decode_retold retold keeps kind here) done

theorem findBootstrap_retold {raws : List RawAttribute} {rows : List BootstrapEntry}
    (done : findBootstrap pool raws = .ok rows) : findBootstrap other raws = .ok rows := by
  have isKnown : "BootstrapMethods" ∈ Attribute.known ++ CodeAttribute.known := by decide
  induction raws with
  | nil => exact done
  | cons raw rest ih =>
    obtain ⟨name, named, done⟩ := Except.bind_eq_ok.1 done
    refine Except.bind_eq_ok.2 ⟨f name, retold.utf8 named, ?_⟩
    split at done
    case isTrue same =>
      rwa [if_pos (by rw [same, keeps.known _ isKnown])]
    case isFalse differs =>
      rw [if_neg fun same => differs (by rw [← keeps.apart name (same ▸ isKnown), same])]
      exact ih done

end ClassRenaming
