import ClassRenaming.Proofs.EmittedFrames
import ClassRenaming.Proofs.InstructionSizes
import ClassRenaming.Proofs.NestedAttributes
import ClassRenaming.Proofs.SettledBodies

/-!
The sums of code offsets that reading and writing a class make: the offsets of frames, which are
added up from distances, and the ends of ranges. In a file that was read they fit 32 bits, and renaming
and new frames bring no others but offsets of instructions.
-/

namespace ClassRenaming

open Reader

/-! The sums of offsets in an attribute. -/

def TypeTarget.offsetSums : TypeTarget → List Nat
  | .localVariable ranges => ranges.map fun range => range.start + range.length
  | _ => []

/-- The offset of a frame is the sum of the distances up to it, and a range ends at its start and
its length together. -/
def CodeAttribute.offsetSums : CodeAttribute → List Nat
  | .stackMap frames => frames.map Frame.offset
  | .localVariables entries | .localVariableTypes entries =>
    entries.map fun entry => entry.start + entry.length
  | .typeAnnotations _ entries => entries.flatMap fun item => item.target.offsetSums
  | .lineNumbers _ | .unknown .. => []

def Code.offsetSums (code : Code) : List Nat := code.attributes.flatMap CodeAttribute.offsetSums

def Attribute.offsetSums : Attribute → List Nat
  | .code body => body.offsetSums
  | .typeAnnotations _ entries => entries.flatMap fun item => item.target.offsetSums
  | _ => []

section Read

variable {pool : ConstantPool}

theorem Frame.gives_distance (pool : ConstantPool) :
    Gives (Frame.readRelative pool) fun _ frame => frame.offset < 65536 := by
  refine Gives.any.bind fun _ tag _ => ?_
  have byte := tag.toNat_lt
  have rest := (tag - 64).toNat_lt
  split
  · exact .pure (by dsimp only; omega)
  split
  · exact Gives.any.bind fun _ item _ => .pure (by dsimp only; omega)
  split
  · exact .throw
  refine Gives.any.bind fun _ distance _ => ?_
  have small := distance.toNat_lt
  split
  · exact Gives.any.bind fun _ item _ => .pure small
  split
  · exact .pure small
  split
  · exact .pure small
  split
  · exact Gives.any.bind fun _ types _ => .pure small
  · exact Gives.any.bind fun _ locals _ => Gives.any.bind fun _ stack _ => .pure small

theorem Frame.offset_absolute_lt {base : Nat} {frames : List Frame}
    (small : ∀ frame ∈ frames, frame.offset < 65536) :
    ∀ frame ∈ Frame.absolute base frames, frame.offset < base + 65536 * frames.length := by
  induction frames generalizing base with
  | nil => simp [Frame.absolute]
  | cons first rest ih =>
    rw [List.forall_mem_cons] at small
    intro frame member
    rw [List.length_cons]
    rcases List.mem_cons.1 member with rfl | later
    · dsimp only
      omega
    · have bound := ih small.2 frame later
      omega

/-- A table has at most 65535 frames, which leaves 65536 numbers to the limit of 32 bits. -/
theorem Frame.gives_offsets (pool : ConstantPool) :
    Gives (Frame.readTable pool) fun _ frames =>
      ∀ frame ∈ frames, frame.offset + 65536 < 4294967296 := by
  have relative : Gives (table (Frame.readRelative pool)) fun _ frames =>
      frames.length < 65536 ∧ ∀ frame ∈ frames, frame.offset < 65536 :=
    fun _ _ _ done => ⟨Reader.length_table_lt done, Gives.table (Frame.gives_distance pool) done⟩
  refine relative.bind fun _ frames bounded => .pure fun frame member => ?_
  have bound := Frame.offset_absolute_lt bounded.2 frame member
  omega

theorem LocalVariable.gives_stop (pool : ConstantPool) :
    Gives (LocalVariable.read pool) fun _ entry => entry.start + entry.length < 4294967296 := by
  refine Gives.any.bind fun _ start _ => Gives.any.bind fun _ length _ => ?_
  refine Gives.any.bind fun _ name _ => Gives.any.bind fun _ descriptor _ => ?_
  refine Gives.any.bind fun _ index _ => .pure ?_
  have first := start.toNat_lt
  have second := length.toNat_lt
  dsimp only
  omega

theorem TypeTarget.gives_stops (targetType : UInt8) :
    Gives (TypeTarget.read targetType) fun _ target => ∀ sum ∈ target.offsetSums, sum < 4294967296 := by
  have range : Gives LocalRange.read fun _ range => range.start + range.length < 4294967296 := by
    refine Gives.any.bind fun _ start _ => Gives.any.bind fun _ length _ => ?_
    refine Gives.any.bind fun _ index _ => .pure ?_
    have first := start.toNat_lt
    have second := length.toNat_lt
    dsimp only
    omega
  unfold TypeTarget.read
  refine .ite (fun _ => Gives.any.bind fun _ _ _ => .pure nofun) fun _ => ?_
  refine .ite (fun _ => Gives.any.bind fun _ _ _ => .pure nofun) fun _ => ?_
  refine .ite (fun _ => Gives.any.bind fun _ _ _ => Gives.any.bind fun _ _ _ => .pure nofun)
    fun _ => ?_
  refine .ite (fun _ => .pure nofun) fun _ => ?_
  refine .ite (fun _ => Gives.any.bind fun _ _ _ => .pure nofun) fun _ => ?_
  refine .ite (fun _ => Gives.any.bind fun _ _ _ => .pure nofun) fun _ => ?_
  refine .ite (fun _ => range.table.bind fun _ ranges all => .pure (List.forall_mem_map.2 all))
    fun _ => ?_
  refine .ite (fun _ => Gives.any.bind fun _ _ _ => .pure nofun) fun _ => ?_
  refine .ite (fun _ => Gives.any.bind fun _ _ _ => .pure nofun) fun _ => ?_
  refine .ite (fun _ => Gives.any.bind fun _ _ _ => Gives.any.bind fun _ _ _ => .pure nofun)
    fun _ => ?_
  exact .throw

theorem TypeAnnotation.gives_stops (pool : ConstantPool) :
    Gives (readTable pool) fun _ entries =>
      ∀ sum ∈ entries.flatMap fun item => item.target.offsetSums, sum < 4294967296 := by
  intro bytes entries rest done
  have each : Gives (read pool bytes.length) fun _ item =>
      ∀ sum ∈ item.target.offsetSums, sum < 4294967296 :=
    Gives.any.bind fun _ targetType _ => (TypeTarget.gives_stops targetType).bind
      fun _ target bounded => Gives.any.bind fun _ count _ => Gives.any.bind fun _ path _ =>
        Gives.any.bind fun _ value _ => .pure bounded
  intro sum member
  obtain ⟨item, listed, inside⟩ := List.mem_flatMap.1 member
  exact Gives.table each done item listed sum inside

theorem CodeAttribute.offsetSums_of_read {name : String} {info : Bytes} {item : CodeAttribute}
    (done : CodeAttribute.read pool name info = .ok item) :
    ∀ sum ∈ item.offsetSums, sum < 4294967296 := by
  unfold CodeAttribute.read at done
  split at done
  case h_1 =>
    obtain ⟨frames, read, rfl⟩ := Except.map_eq_ok.1 done
    have bounded := (Frame.gives_offsets pool).all read
    exact List.forall_mem_map.2 fun frame member => Nat.lt_of_add_right_lt (bounded frame member)
  case h_2 =>
    obtain ⟨lines, -, rfl⟩ := Except.map_eq_ok.1 done
    exact nofun
  case h_3 =>
    obtain ⟨entries, read, rfl⟩ := Except.map_eq_ok.1 done
    exact List.forall_mem_map.2 ((LocalVariable.gives_stop pool).table.all read)
  case h_4 =>
    obtain ⟨entries, read, rfl⟩ := Except.map_eq_ok.1 done
    exact List.forall_mem_map.2 ((LocalVariable.gives_stop pool).table.all read)
  case h_5 =>
    obtain ⟨entries, read, rfl⟩ := Except.map_eq_ok.1 done
    exact TypeAnnotation.gives_stops pool |>.all read
  case h_6 =>
    obtain ⟨entries, read, rfl⟩ := Except.map_eq_ok.1 done
    exact TypeAnnotation.gives_stops pool |>.all read
  case h_7 =>
    cases done
    exact nofun

theorem Code.gives_offsetSums (pool : ConstantPool) :
    Gives (Code.readBody pool) fun _ code =>
      ∀ sum ∈ code.offsetSums, sum < 4294967296 := by
  have inside : Gives (do
      let part ← takeAttribute pool
      CodeAttribute.read pool part.1 part.2) fun _ item => ∀ sum ∈ item.offsetSums, sum < 4294967296 :=
    Gives.any.bind fun _ _ _ => Gives.lift.mono fun _ _ read =>
      CodeAttribute.offsetSums_of_read read.2
  refine Gives.any.bind fun _ maxStack _ => Gives.any.bind fun _ maxLocals _ => ?_
  refine Gives.any.bind fun _ size _ => ?_
  dsimp only
  split
  · exact .throw
  · refine Gives.any.bind fun _ bytecode _ => Gives.any.bind fun _ instructions _ => ?_
    refine Gives.any.bind fun _ _ _ => Gives.any.bind fun _ handlers _ => ?_
    refine inside.table.bind fun _ attributes all => .pure fun sum member => ?_
    obtain ⟨item, listed, here⟩ := List.mem_flatMap.1 member
    exact all item listed sum here

theorem Attribute.IsRead.offsetSums {item : Attribute} (read : item.IsRead pool) :
    ∀ sum ∈ item.offsetSums, sum < 4294967296 := by
  obtain ⟨depth, name, info, done⟩ := read
  cases depth with
  | zero => cases done
  | succ depth =>
    have parts := Attribute.readFrom_of_read done
    cases item with
    | code body => exact (Code.gives_offsetSums pool).all parts
    | typeAnnotations visibility entries =>
      obtain ⟨leftover, read⟩ := parts
      exact TypeAnnotation.gives_stops pool |>.all read
    | _ => exact nofun

theorem Attribute.IsRead.code {body : Code} (read : IsRead pool (.code body)) :
    body.length ≤ Code.maxLength ∧ body.Proper pool.depth := by
  obtain ⟨depth, name, info, done⟩ := read
  cases depth with
  | zero => cases done
  | succ depth =>
    have parts : Code.read pool info = .ok body := Attribute.readFrom_of_read done
    exact ⟨(Code.readInstructions_of_read parts).1, Attribute.proper_of_read done⟩

end Read

/-! What derives from a file. -/

section Derived

theorem CodeAttribute.offsetSums_mapTexts (m : TextMap) (item : CodeAttribute) :
    (item.mapTexts m).offsetSums = item.offsetSums := by
  cases item with
  | lineNumbers | unknown => rfl
  | typeAnnotations visibility entries => exact List.flatMap_map _ _ _
  | _ => exact List.map_map

theorem Code.offsetSums_mapTexts (m : TextMap) (code : Code) :
    (code.mapTexts m).offsetSums = code.offsetSums := by
  simp only [offsetSums, Code.mapTexts, List.flatMap_map, CodeAttribute.offsetSums_mapTexts]

theorem Attribute.offsetSums_mapTexts (m : TextMap) (kind : Signature.Kind) (item : Attribute) :
    (item.mapTexts m kind).offsetSums = item.offsetSums := by
  cases item with
  | code body => exact body.offsetSums_mapTexts m
  | typeAnnotations visibility entries => exact List.flatMap_map _ _ _
  | constantValue constant => cases constant <;> rfl
  | _ => rfl

theorem CodeAttribute.Leaves.offsetSums {item left : CodeAttribute}
    (leaves : item.Leaves (some left)) : left.offsetSums.Sublist item.offsetSums := by
  cases item
  case typeAnnotations visibility entries =>
    obtain gone | ⟨kept, same, fewer⟩ := leaves
    · cases gone
    · cases same
      exact fewer.flatMap _
  all_goals
    cases leaves
    exact List.Sublist.refl _

theorem CodeAttribute.AllLeave.offsetSums {attributes left : List CodeAttribute}
    (leave : AllLeave attributes left) :
    (left.flatMap CodeAttribute.offsetSums).Sublist
      (attributes.flatMap CodeAttribute.offsetSums) := by
  induction attributes generalizing left with
  | nil =>
    cases leave
    exact List.Sublist.refl _
  | cons first rest ih =>
    obtain ⟨one, others, rfl, here, there⟩ := leave
    rw [List.flatMap_append, List.flatMap_cons]
    refine List.Sublist.append ?_ (ih there)
    cases one with
    | none => exact List.nil_sublist _
    | some kept => simpa using here.offsetSums

theorem Attribute.Leaves.code_eq {item : Attribute} {body : Code}
    (leaves : item.Leaves (some (.code body))) : ∃ old, item = .code old ∧ old.Leaves body := by
  cases item
  case code old =>
    obtain ⟨kept, same, left⟩ := leaves
    cases same
    exact ⟨old, rfl, left⟩
  case annotations | typeAnnotations =>
    obtain gone | ⟨kept, same, -⟩ := leaves
    · cases gone
    · cases same
  case exceptions | parameterAnnotations | record =>
    obtain ⟨kept, same, -⟩ := leaves
    cases same
  all_goals cases leaves

theorem Attribute.Leaves.offsetSums {item rest : Attribute} (leaves : item.Leaves (some rest)) :
    rest.offsetSums.Sublist item.offsetSums := by
  cases item
  case code body =>
    obtain ⟨kept, same, _, rfl, leave⟩ := leaves
    cases same
    exact leave.offsetSums
  case typeAnnotations visibility entries =>
    obtain gone | ⟨kept, same, fewer⟩ := leaves
    · cases gone
    · cases same
      exact fewer.flatMap _
  case annotations =>
    obtain gone | ⟨kept, same, -⟩ := leaves
    · cases gone
    · cases same
      exact List.Sublist.refl _
  case exceptions | parameterAnnotations | record =>
    obtain ⟨kept, same, -⟩ := leaves
    cases same
    exact List.Sublist.refl _
  all_goals
    cases leaves
    exact List.Sublist.refl _

theorem TypeAnnotation.offsetSums_of_moveCatch? {moved : List (Option Nat)}
    {item kept : TypeAnnotation} (left : item.moveCatch? moved = some kept) :
    kept.target.offsetSums = item.target.offsetSums := by
  unfold TypeAnnotation.moveCatch? at left
  split at left
  · next index target =>
    split at left
    · split at left <;> cases left
      rw [target]
      rfl
    · cases left
  · cases left
    rfl

theorem CodeAttribute.offsetSums_moveCatch (moved : List (Option Nat)) (item : CodeAttribute) :
    (item.moveCatch moved).offsetSums.Sublist item.offsetSums := by
  cases item with
  | typeAnnotations visibility entries =>
    exact flatMap_filterMap_sublist
      (fun _ _ left => TypeAnnotation.offsetSums_of_moveCatch? left) entries
  | _ => exact List.Sublist.refl _

theorem Code.offsetSums_carveHandlers (dead : List (Nat × Nat)) (code : Code) :
    (code.carveHandlers dead).offsetSums.Sublist code.offsetSums := by
  unfold carveHandlers
  dsimp only
  split
  · exact List.Sublist.refl _
  · rw [offsetSums, List.flatMap_map]
    exact List.Sublist.flatMap_right _ fun item _ => CodeAttribute.offsetSums_moveCatch _ item

theorem Code.offsetSums_withFlow {code result : Code} {depth : Nat} {major : UInt16}
    {entry : FrameState} {flow : Flow} (proper : code.Proper depth)
    (done : code.withFlow major entry flow = .ok result) :
    ∀ sum ∈ result.offsetSums, sum ∈ code.offsetSums ∨ sum < code.length := by
  obtain ⟨maxStack, maxLocals, rfl⟩ := Code.eq_of_withFlow done
  intro sum member
  obtain ⟨item, listed, inside⟩ := List.mem_flatMap.1 member
  rcases Code.mem_replaceIn listed with rfl | old
  · right
    obtain ⟨frame, among, rfl⟩ := List.mem_map.1 inside
    split at among
    · have offset : frame.offset ∈ (code.frameTable entry flow).map Frame.offset :=
        List.mem_map_of_mem among
      rw [Code.offset_frameTable] at offset
      obtain ⟨span, framed, same⟩ := List.mem_map.1 offset
      have placed := Span.placed_mem ((Span.framed_sublist _ _ _).subset framed)
      rw [← same]
      exact proper.tiles.offset_lt placed
    · cases among
  · exact .inl ((Code.offsetSums_carveHandlers _ code).subset
      (List.mem_flatMap.2 ⟨item, old, inside⟩))

end Derived

structure Attribute.InBounds (depth : Nat) (item : Attribute) : Prop where
  sums : ∀ sum ∈ item.offsetSums, sum < 4294967296
  body : ∀ body, item = .code body → body.length ≤ Code.maxLength ∧ body.Proper depth

namespace Attribute.InBounds

variable {depth : Nat} {item : Attribute}

theorem of_read {pool : ConstantPool} (read : item.IsRead pool) : item.InBounds pool.depth := by
  refine ⟨read.offsetSums, ?_⟩
  rintro body rfl
  exact read.code

theorem mapTexts {m : TextMap} (keeps : m.KeepsNames) (kind : Signature.Kind)
    (bounded : item.InBounds depth) : (item.mapTexts m kind).InBounds depth := by
  refine ⟨by rw [offsetSums_mapTexts]; exact bounded.sums, fun body same => ?_⟩
  cases item
  case code old =>
    cases same
    obtain ⟨short, proper⟩ := bounded.body old rfl
    exact ⟨short, proper.mapTexts keeps⟩
  case constantValue constant => cases constant <;> cases same
  all_goals cases same

theorem left {rest : Attribute} (leaves : item.Leaves (some rest)) (bounded : item.InBounds depth) :
    rest.InBounds depth := by
  refine ⟨fun sum member => bounded.sums sum (leaves.offsetSums.subset member), ?_⟩
  rintro body rfl
  obtain ⟨old, rfl, left⟩ := leaves.code_eq
  obtain ⟨short, proper⟩ := bounded.body old rfl
  refine ⟨?_, left.proper proper⟩
  obtain ⟨_, rfl, -⟩ := left
  exact short

theorem reframed {good : String → Prop} {result : Attribute} (same : item.Reframed good result)
    (bounded : item.InBounds depth) : result.InBounds depth := by
  obtain rfl | ⟨old, new, rfl, rfl, same⟩ := same
  · exact bounded
  · obtain rfl | ⟨major, entry, flow, named, done⟩ := same
    · exact bounded
    · obtain ⟨short, proper⟩ := bounded.body old rfl
      refine ⟨fun sum member => ?_, ?_⟩
      · rcases Code.offsetSums_withFlow proper done sum member with before | inside
        · exact bounded.sums sum before
        · have limit : old.length ≤ 65535 := short
          omega
      · rintro body ⟨⟩
        exact ⟨(Code.length_withFlow done).trans_le short, proper.withFlow named.size done⟩

end Attribute.InBounds

theorem ClassFile.Derives.inBounds {bytes : Bytes} {file : ClassFile} {model : ClassModel}
    (parsed : ClassFile.parse bytes = .ok file) (derives : file.Derives model) :
    ∀ item ∈ model.allAttributes, item.InBounds file.pool.depth :=
  derives.forall_attributes (fun _ _ kind keeps bounded => bounded.mapTexts keeps kind)
    (fun _ _ leaves bounded => bounded.left leaves) (fun _ _ same bounded => bounded.reframed same)
    fun item listed => .of_read (ClassFile.isRead_of_parse parsed item listed)

end ClassRenaming
