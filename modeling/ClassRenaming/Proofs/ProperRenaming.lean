import ClassRenaming.Proofs.MappedBack
import ClassRenaming.Proofs.ReadClasses
import ClassRenaming.Proofs.Retelling
import ClassRenaming.Proofs.SettledClasses
import ClassRenaming.Relocation

/-!
A class that can be read back once it is written is still of that kind after its texts are mapped,
as long as attributes keep their names, and after collisions are settled.
-/

namespace ClassRenaming

variable {depth : Nat} {m : TextMap}

section Mapped

mutual

theorem Constant.nesting_mapTexts : ∀ constant : Constant,
    (constant.mapTexts m).nesting = constant.nesting
  | .integer _ | .float _ | .long _ | .double _ | .string _ | .classRef _ | .methodType _
  | .methodHandle _ => rfl
  | .dynamic _ _ ⟨_, arguments⟩ => congrArg (· + 1) (Constant.listNesting_mapTexts arguments)

theorem Constant.listNesting_mapTexts : ∀ constants : List Constant,
    Constant.listNesting (Constant.mapTextsList m constants) = Constant.listNesting constants
  | [] => rfl
  | first :: rest => by
    rw [Constant.mapTextsList, Constant.listNesting, Constant.nesting_mapTexts first,
      Constant.listNesting_mapTexts rest, Constant.listNesting]

end

theorem Instruction.Proper.mapTexts {instruction : Instruction}
    (proper : instruction.Proper depth) : (instruction.mapTexts m).Proper depth := by
  cases instruction with
  | load opcode constant => exact ⟨proper.1, by rw [Constant.nesting_mapTexts]; exact proper.2⟩
  | invokeDynamic name descriptor bootstrap =>
    refine ⟨proper.1, ?_⟩
    rw [mapBootstrapTexts, Constant.listNesting_mapTexts]
    exact proper.2
  | _ => exact proper

theorem FrameKind.Short.mapTexts {kind : FrameKind} (short : kind.Short) :
    (kind.map (VerificationType.mapTexts m)).Short := by
  cases kind with
  | append types => simpa [FrameKind.map, FrameKind.Short] using short
  | _ => exact short

abbrev TextMap.KeepsNames (m : TextMap) : Prop := ∀ name, m.name name = name

theorem CodeAttribute.Proper.mapTexts (keeps : m.KeepsNames) {item : CodeAttribute}
    (proper : item.Proper) : (item.mapTexts m).Proper := by
  cases item with
  | stackMap frames =>
    intro frame member
    obtain ⟨old, inside, rfl⟩ := List.mem_map.1 member
    exact (proper old inside).mapTexts
  | typeAnnotations visibility entries =>
    intro item member
    obtain ⟨old, inside, rfl⟩ := List.mem_map.1 member
    exact proper old inside
  | unknown name info =>
    rw [CodeAttribute.mapTexts, keeps]
    exact proper
  | _ => trivial

namespace Code

theorem tiles_mapTexts {start stop : Nat} {instructions : List Placed}
    (tiles : Tiles start instructions stop) :
    Tiles start (instructions.map (Placed.mapTexts m)) stop := by
  induction instructions generalizing start with
  | nil => exact tiles
  | cons placed rest ih =>
    obtain ⟨here, there⟩ := tiles
    refine ⟨here, ih ?_⟩
    rw [Placed.mapTexts, Instruction.size_mapTexts]
    exact there

theorem IsStart.mapTexts {instructions : List Placed} {offset : Nat}
    (start : IsStart instructions offset) :
    IsStart (instructions.map (Placed.mapTexts m)) offset := by
  obtain ⟨placed, member, here⟩ := start
  exact ⟨_, List.mem_map_of_mem member, here⟩

theorem Proper.mapTexts (keeps : m.KeepsNames) {code : Code} (proper : code.Proper depth) :
    (code.mapTexts m).Proper depth where
  tiles := tiles_mapTexts proper.tiles
  nonempty := by simpa [Code.mapTexts] using proper.nonempty
  instructions := by
    intro placed member
    obtain ⟨old, inside, rfl⟩ := List.mem_map.1 member
    exact (proper.instructions old inside).mapTexts
  targets := by
    intro placed member target listed
    obtain ⟨old, inside, rfl⟩ := List.mem_map.1 member
    rw [Placed.mapTexts, Instruction.branchTargets_mapTexts] at listed
    exact (proper.targets old inside target listed).mapTexts
  handlers := by
    intro handler member
    obtain ⟨old, inside, rfl⟩ := List.mem_map.1 member
    obtain ⟨start, target, stop, nonempty⟩ := proper.handlers old inside
    exact ⟨start.mapTexts, target.mapTexts, stop.imp id IsStart.mapTexts, nonempty⟩
  attributes := by
    intro item member
    obtain ⟨old, inside, rfl⟩ := List.mem_map.1 member
    exact (proper.attributes old inside).mapTexts keeps

end Code

mutual

theorem Attribute.Proper.mapTexts (keeps : m.KeepsNames) (kind : Signature.Kind) :
    ∀ {item : Attribute}, item.Proper depth → (item.mapTexts m kind).Proper depth
  | .constantValue constant, proper => by
    cases constant
    case string => exact proper
    all_goals
      rw [Attribute.mapTexts, Attribute.Proper, Constant.nesting_mapTexts]
      · exact proper
      · exact nofun
  | .typeAnnotations _ _, proper => by
    intro item member
    obtain ⟨old, inside, rfl⟩ := List.mem_map.1 member
    exact proper old inside
  | .record _, proper => Attribute.ComponentsProper.mapTexts keeps proper
  | .code _, proper => Code.Proper.mapTexts keeps proper
  | .unknown name _, proper => by
    rw [Attribute.mapTexts, keeps]
    exact proper
  | .signature _, _ | .exceptions _, _ | .annotations _ _, _ | .parameterAnnotations _ _, _
  | .annotationDefault _, _ | .innerClasses _, _ | .enclosingMethod _ _, _ | .nestHost _, _
  | .nestMembers _, _ | .permittedSubclasses _, _ | .bootstrapMethods, _ => trivial

theorem Attribute.ComponentsProper.mapTexts (keeps : m.KeepsNames) :
    ∀ {components : List (RecordComponent Attribute)},
      Attribute.ComponentsProper depth components →
        Attribute.ComponentsProper depth (Attribute.mapTextsComponents m components)
  | [], _ => trivial
  | _ :: _, ⟨here, there⟩ =>
    ⟨Attribute.AllProper.mapTexts keeps .field here,
      Attribute.ComponentsProper.mapTexts keeps there⟩

theorem Attribute.AllProper.mapTexts (keeps : m.KeepsNames) (kind : Signature.Kind) :
    ∀ {attributes : List Attribute}, Attribute.AllProper depth attributes →
      Attribute.AllProper depth (Attribute.mapTextsList m kind attributes)
  | [], _ => trivial
  | _ :: _, ⟨here, there⟩ =>
    ⟨Attribute.Proper.mapTexts keeps kind here, Attribute.AllProper.mapTexts keeps kind there⟩

end

theorem ClassModel.Proper.mapTexts (keeps : m.KeepsNames) {model : ClassModel}
    (proper : model.Proper depth) :
    (model.mapTexts m).Proper depth where
  fields := by
    intro member inside
    obtain ⟨old, listed, rfl⟩ := List.mem_map.1 inside
    exact (proper.fields old listed).mapTexts keeps .field
  methods := by
    intro member inside
    obtain ⟨old, listed, rfl⟩ := List.mem_map.1 inside
    exact (proper.methods old listed).mapTexts keeps .method
  attributes := proper.attributes.mapTexts keeps .type
  place := by
    intro deep
    rw [ClassModel.mapTexts, Attribute.mapTextsList_eq_map]
    exact List.mem_map.2 ⟨_, proper.place deep, rfl⟩

end Mapped

/-! Leaving something out. -/

section Left

theorem CodeAttribute.Leaves.proper {item left : CodeAttribute} (leaves : item.Leaves (some left))
    (proper : item.Proper) : left.Proper := by
  cases item
  case typeAnnotations =>
    obtain gone | ⟨kept, same, fewer⟩ := leaves
    · cases gone
    cases same
    exact fun item member => proper item (fewer.subset member)
  all_goals
    cases leaves
    exact proper

theorem CodeAttribute.AllLeave.proper {attributes left : List CodeAttribute}
    (leave : AllLeave attributes left) (proper : ∀ item ∈ attributes, item.Proper) :
    ∀ item ∈ left, item.Proper := by
  induction attributes generalizing left with
  | nil =>
    cases leave
    exact proper
  | cons first rest ih =>
    obtain ⟨one, others, rfl, here, there⟩ := leave
    intro item member
    rcases List.mem_append.1 member with member | member
    · cases Option.mem_toList.1 member
      exact here.proper (proper first (by simp))
    · exact ih there (fun other inside => proper other (by simp [inside])) item member

theorem Code.Leaves.proper {code left : Code} (leaves : code.Leaves left)
    (proper : code.Proper depth) : left.Proper depth := by
  obtain ⟨kept, rfl, leave⟩ := leaves
  exact { proper with attributes := leave.proper proper.attributes }

mutual

theorem Attribute.Leaves.proper : ∀ {item left : Attribute}, item.Leaves (some left) →
    item.Proper depth → left.Proper depth
  | .exceptions _, _, ⟨_, rfl, _⟩, _ => trivial
  | .annotations _ _, _, .inr ⟨_, rfl, _⟩, _ => trivial
  | .parameterAnnotations _ _, _, ⟨_, rfl, _⟩, _ => trivial
  | .typeAnnotations _ _, _, .inr ⟨_, rfl, fewer⟩, proper =>
    fun item member => proper item (fewer.subset member)
  | .record _, _, ⟨_, rfl, leave⟩, proper => Attribute.ComponentsLeave.proper leave proper
  | .code _, _, ⟨_, rfl, leaves⟩, proper => Code.Leaves.proper leaves proper
  | .signature _, _, rfl, proper | .constantValue _, _, rfl, proper
  | .annotationDefault _, _, rfl, proper | .innerClasses _, _, rfl, proper
  | .enclosingMethod _ _, _, rfl, proper | .nestHost _, _, rfl, proper
  | .nestMembers _, _, rfl, proper | .permittedSubclasses _, _, rfl, proper
  | .bootstrapMethods, _, rfl, proper | .unknown _ _, _, rfl, proper => proper

theorem Attribute.ComponentsLeave.proper : ∀ {components left : List (RecordComponent Attribute)},
    Attribute.ComponentsLeave components left → Attribute.ComponentsProper depth components →
      Attribute.ComponentsProper depth left
  | [], _, rfl, _ => trivial
  | _ :: _, _, ⟨_, _, rfl, here, there⟩, ⟨first, rest⟩ =>
    ⟨Attribute.AllLeave.proper here first, Attribute.ComponentsLeave.proper there rest⟩

theorem Attribute.AllLeave.proper : ∀ {attributes left : List Attribute},
    Attribute.AllLeave attributes left → Attribute.AllProper depth attributes →
      Attribute.AllProper depth left
  | [], _, rfl, _ => trivial
  | _ :: _, _, ⟨none, _, rfl, _, there⟩, ⟨_, rest⟩ => Attribute.AllLeave.proper there rest
  | _ :: _, _, ⟨some _, _, rfl, here, there⟩, ⟨first, rest⟩ =>
    ⟨Attribute.Leaves.proper here first, Attribute.AllLeave.proper there rest⟩

end

theorem Attribute.AllLeave.bootstrapMethods_mem {attributes left : List Attribute}
    (leave : AllLeave attributes left) (member : .bootstrapMethods ∈ attributes) :
    .bootstrapMethods ∈ left := by
  induction attributes generalizing left with
  | nil => cases member
  | cons first rest ih =>
    obtain ⟨one, others, rfl, here, there⟩ := leave
    rcases List.mem_cons.1 member with rfl | member
    · cases here
      exact List.mem_cons_self
    · exact List.mem_append_right _ (ih there member)

theorem Member.Leaves.proper {members left : List Member}
    (leave : List.Forall₂ Member.Leaves members left)
    (proper : ∀ member ∈ members, Attribute.AllProper depth member.attributes) :
    ∀ member ∈ left, Attribute.AllProper depth member.attributes := by
  intro member listed
  obtain ⟨old, before, leaves⟩ := exists_of_mem_right leave listed
  exact leaves.attributes.proper (proper old before)

theorem ClassModel.Leaves.proper {model left : ClassModel} (leaves : model.Leaves left)
    (proper : model.Proper depth) : left.Proper depth where
  fields := Member.Leaves.proper leaves.fields proper.fields
  methods := Member.Leaves.proper leaves.methods proper.methods
  attributes := leaves.attributes.proper proper.attributes
  place := fun deep => leaves.attributes.bootstrapMethods_mem (proper.place deep)

end Left

theorem ClassModel.Proper.relocate (table : Renaming) {model : ClassModel}
    (proper : model.Proper depth) : (model.relocate table).Proper depth := by
  rw [ClassModel.relocate, ClassModel.rename_eq]
  exact (model.mapTexts (.ofTable table)).settle_leaves.proper (.mapTexts (fun _ => rfl) proper)

end ClassRenaming
