import ClassRenaming.Proofs.ComesBack
import ClassRenaming.Proofs.MappedTexts
import ClassRenaming.Proofs.SettledClasses

/-!
Settling collisions and writing a class bring no site into it. What is left of a class, and what it
comes back as, has sites of the class alone.
-/

namespace ClassRenaming

theorem flatMap_subset_flatMap {α β : Type} {f g : α → List β} {items others : List α}
    (each : ∀ other ∈ others, ∃ item ∈ items, g other ⊆ f item) :
    others.flatMap g ⊆ items.flatMap f := by
  intro site member
  obtain ⟨other, listed, inside⟩ := List.mem_flatMap.1 member
  obtain ⟨item, there, subset⟩ := each other listed
  exact List.mem_flatMap.2 ⟨item, there, subset inside⟩

theorem flatMap_subset_of_sublist {α β : Type} (f : α → List β) {items others : List α}
    (fewer : others.Sublist items) : others.flatMap f ⊆ items.flatMap f :=
  flatMap_subset_flatMap fun other listed => ⟨other, fewer.subset listed, List.Subset.refl _⟩

theorem flatMap_subset_of_forall₂ {α β : Type} {related : α → α → Prop} {f : α → List β}
    (each : ∀ item other, related item other → f other ⊆ f item) {items others : List α}
    (all : List.Forall₂ related items others) : others.flatMap f ⊆ items.flatMap f := by
  apply flatMap_subset_flatMap
  intro other listed
  obtain ⟨item, before, here⟩ := exists_of_mem_right all listed
  exact ⟨item, before, each item other here⟩

theorem append_subset_append {α : Type} {front back items others : List α} (first : items ⊆ front)
    (second : others ⊆ back) : items ++ others ⊆ front ++ back :=
  List.append_subset.2 ⟨List.subset_append_of_subset_left _ first,
    List.subset_append_of_subset_right _ second⟩

section Left

theorem CodeAttribute.Leaves.sites_subset {item left : CodeAttribute}
    (leaves : item.Leaves (some left)) : left.sites ⊆ item.sites := by
  cases item
  case typeAnnotations =>
    obtain gone | ⟨kept, same, fewer⟩ := leaves
    · cases gone
    cases same
    exact flatMap_subset_of_sublist _ fewer
  all_goals
    cases leaves
    exact List.Subset.refl _

theorem CodeAttribute.AllLeave.sites_subset {attributes left : List CodeAttribute}
    (leave : AllLeave attributes left) :
    left.flatMap CodeAttribute.sites ⊆ attributes.flatMap CodeAttribute.sites := by
  induction attributes generalizing left with
  | nil =>
    cases leave
    exact List.Subset.refl _
  | cons first rest ih =>
    obtain ⟨one, others, rfl, here, there⟩ := leave
    rw [List.flatMap_append, List.flatMap_cons]
    refine List.append_subset.2 ⟨?_, List.subset_append_of_subset_right _ (ih there)⟩
    cases one with
    | none => exact List.nil_subset _
    | some left =>
      rw [Option.toList_some, List.flatMap_singleton]
      exact List.subset_append_of_subset_left _ here.sites_subset

theorem Code.Leaves.sites_subset {code left : Code} (leaves : code.Leaves left) :
    left.sites ⊆ code.sites := by
  obtain ⟨kept, rfl, leave⟩ := leaves
  exact List.append_subset.2 ⟨List.subset_append_left _ _,
    List.subset_append_of_subset_right _ leave.sites_subset⟩

mutual

theorem Attribute.Leaves.sites_subset (kind : Signature.Kind) : ∀ {item left : Attribute},
    item.Leaves (some left) → left.sites kind ⊆ item.sites kind
  | .exceptions _, _, ⟨_, rfl, fewer, _⟩ => (fewer.map _).subset
  | .annotations _ _, _, .inr ⟨_, rfl, fewer⟩ => flatMap_subset_of_sublist _ fewer
  | .parameterAnnotations _ _, _, ⟨_, rfl, fewer⟩ =>
    flatMap_subset_of_sublist _ (sublist_flatten fewer)
  | .typeAnnotations _ _, _, .inr ⟨_, rfl, fewer⟩ => flatMap_subset_of_sublist _ fewer
  | .record _, _, ⟨_, rfl, leave⟩ => Attribute.ComponentsLeave.sites_subset leave
  | .code _, _, ⟨_, rfl, leaves⟩ => leaves.sites_subset
  | .signature _, _, rfl | .constantValue _, _, rfl | .annotationDefault _, _, rfl
  | .innerClasses _, _, rfl | .enclosingMethod _ _, _, rfl | .nestHost _, _, rfl
  | .nestMembers _, _, rfl | .permittedSubclasses _, _, rfl | .bootstrapMethods, _, rfl
  | .unknown _ _, _, rfl => List.Subset.refl _

theorem Attribute.ComponentsLeave.sites_subset :
    ∀ {components left : List (RecordComponent Attribute)},
      Attribute.ComponentsLeave components left →
        Attribute.componentSites left ⊆ Attribute.componentSites components
  | [], _, rfl => List.Subset.refl _
  | _ :: _, _, ⟨_, _, rfl, here, there⟩ =>
    append_subset_append (List.cons_subset_cons _ (Attribute.AllLeave.sites_subset .field here))
      (Attribute.ComponentsLeave.sites_subset there)

theorem Attribute.AllLeave.sites_subset (kind : Signature.Kind) :
    ∀ {attributes left : List Attribute}, Attribute.AllLeave attributes left →
      Attribute.listSites kind left ⊆ Attribute.listSites kind attributes
  | [], _, rfl => List.Subset.refl _
  | _ :: _, _, ⟨none, _, rfl, _, there⟩ =>
    List.subset_append_of_subset_right _ (Attribute.AllLeave.sites_subset kind there)
  | _ :: _, _, ⟨some _, _, rfl, here, there⟩ =>
    append_subset_append (Attribute.Leaves.sites_subset kind here)
      (Attribute.AllLeave.sites_subset kind there)

end

theorem Member.Leaves.sites_subset (kind : Signature.Kind) {member left : Member}
    (leaves : member.Leaves left) : left.sites kind ⊆ member.sites kind := by
  rw [Member.sites, Member.sites, leaves.descriptor]
  exact List.cons_subset_cons _ (leaves.attributes.sites_subset kind)

theorem ClassModel.Leaves.sites_subset {model left : ClassModel} (leaves : model.Leaves left) :
    left.sites ⊆ model.sites := by
  have methods := flatMap_subset_of_forall₂ (fun _ _ here => here.sites_subset .method) leaves.methods
  have fields := flatMap_subset_of_forall₂ (fun _ _ here => here.sites_subset .field) leaves.fields
  have name : left.name = model.name := by rw [leaves.header]
  have superclass : left.superclass = model.superclass := by rw [leaves.header]
  rw [sites, sites, name, superclass]
  apply append_subset_append _ methods
  apply append_subset_append _ fields
  apply append_subset_append _ (leaves.attributes.sites_subset .type)
  exact append_subset_append (List.Subset.refl _) (leaves.interfaces.1.map _).subset

end Left

/-! What a class comes back as. -/

section Back

mutual

theorem Constant.sites_normal : ∀ constant : Constant, constant.normal.sites = constant.sites
  | .integer _ | .float _ | .long _ | .double _ | .string _ | .classRef _ | .methodType _ => rfl
  | .methodHandle handle => by
    rw [Constant.normal, Constant.sites, MethodHandle.member_normal, Constant.sites]
  | .dynamic name descriptor ⟨method, arguments⟩ => by
    simp only [Constant.normal, Constant.sites, MethodHandle.member_normal,
      Constant.listSites_normal arguments]

theorem Constant.listSites_normal : ∀ constants : List Constant,
    Constant.listSites (Constant.normalList constants) = Constant.listSites constants
  | [] => rfl
  | first :: rest => by
    rw [Constant.normalList, Constant.listSites, Constant.sites_normal first,
      Constant.listSites_normal rest, Constant.listSites]

end

theorem bootstrapSites_normal (bootstrap : BootstrapMethod) :
    bootstrapSites (normalBootstrap bootstrap) = bootstrapSites bootstrap := by
  rw [bootstrapSites, normalBootstrap, MethodHandle.member_normal, Constant.listSites_normal,
    bootstrapSites]

variable (move : Nat → Nat)

theorem Instruction.sites_moved (operand : Option UInt16) (instruction : Instruction) :
    (instruction.moved move operand).sites = instruction.sites := by
  cases instruction with
  | load opcode constant => exact Constant.sites_normal constant
  | invokeDynamic name descriptor bootstrap =>
    rw [Instruction.moved, Instruction.sites, bootstrapSites_normal, Instruction.sites]
  | _ => rfl

theorem VerificationType.sites_moved (type : VerificationType) :
    (type.moved move).sites = type.sites := by
  cases type <;> rfl

theorem Frame.types_moved (frame : Frame) :
    (frame.moved move).kind.types.flatMap VerificationType.sites =
      frame.kind.types.flatMap VerificationType.sites := by
  rw [Frame.moved, FrameKind.types_map, List.flatMap_map,
    funext (VerificationType.sites_moved move)]

theorem CodeAttribute.sites_moved (item : CodeAttribute) :
    (item.moved move).sites = item.sites := by
  cases item with
  | stackMap frames =>
    rw [CodeAttribute.moved, CodeAttribute.sites, List.flatMap_map, funext (Frame.types_moved move)]
    rfl
  | localVariables entries => exact List.map_map
  | localVariableTypes entries => exact List.map_map
  | typeAnnotations visibility entries => exact List.flatMap_map _ _ _
  | _ => rfl

theorem Code.ComesBack.sites_subset {pool : ConstantPool} {code result : Code}
    (comes : code.ComesBack pool result) : result.sites ⊆ code.sites := by
  obtain ⟨operands, layout, -, -, rfl⟩ := comes
  apply append_subset_append (append_subset_append _ _) _
  · apply flatMap_subset_flatMap
    intro placed member
    obtain ⟨⟨⟨old, operand⟩, position⟩, listed, rfl⟩ := List.mem_map.1 member
    have before := (List.of_mem_zip (List.of_mem_zip listed).1).1
    refine ⟨old, before, ?_⟩
    rw [Instruction.sites_moved]
    exact List.Subset.refl _
  · apply flatMap_subset_flatMap
    intro handler member
    obtain ⟨old, listed, rfl⟩ := List.mem_map.1 member
    exact ⟨old, listed, List.Subset.refl _⟩
  · apply flatMap_subset_flatMap
    intro item member
    obtain ⟨old, listed, rfl⟩ := List.mem_map.1 member
    refine ⟨old, listed, ?_⟩
    rw [CodeAttribute.sites_moved]
    exact List.Subset.refl _

variable {pool : ConstantPool}

theorem Attribute.sites_constantValue_normal (kind : Signature.Kind) (constant : Constant) :
    (Attribute.constantValue constant.normal).sites kind =
      (Attribute.constantValue constant).sites kind := by
  cases constant <;> rfl

mutual

theorem Attribute.ComesBack.sites_subset (kind : Signature.Kind) : ∀ {item result : Attribute},
    item.ComesBack pool result → result.sites kind ⊆ item.sites kind
  | .constantValue constant, _, rfl => by
    rw [Attribute.sites_constantValue_normal]
    exact List.Subset.refl _
  | .record _, _, ⟨_, rfl, come⟩ => Attribute.ComponentsComeBack.sites_subset come
  | .code _, _, ⟨_, rfl, comes⟩ => comes.sites_subset
  | .signature _, _, rfl | .exceptions _, _, rfl | .annotations _ _, _, rfl
  | .parameterAnnotations _ _, _, rfl | .typeAnnotations _ _, _, rfl
  | .annotationDefault _, _, rfl | .innerClasses _, _, rfl | .enclosingMethod _ _, _, rfl
  | .nestHost _, _, rfl | .nestMembers _, _, rfl | .permittedSubclasses _, _, rfl
  | .bootstrapMethods, _, rfl | .unknown _ _, _, rfl => List.Subset.refl _

theorem Attribute.ComponentsComeBack.sites_subset :
    ∀ {components results : List (RecordComponent Attribute)},
      Attribute.ComponentsComeBack pool components results →
        Attribute.componentSites results ⊆ Attribute.componentSites components
  | [], _, rfl => List.Subset.refl _
  | _ :: _, _, ⟨_, _, rfl, here, there⟩ =>
    append_subset_append (List.cons_subset_cons _ (Attribute.AllComeBack.sites_subset .field here))
      (Attribute.ComponentsComeBack.sites_subset there)

theorem Attribute.AllComeBack.sites_subset (kind : Signature.Kind) :
    ∀ {attributes results : List Attribute}, Attribute.AllComeBack pool attributes results →
      Attribute.listSites kind results ⊆ Attribute.listSites kind attributes
  | [], _, rfl => List.Subset.refl _
  | _ :: _, _, ⟨_, _, rfl, here, there⟩ =>
    append_subset_append (Attribute.ComesBack.sites_subset kind here)
      (Attribute.AllComeBack.sites_subset kind there)

end

theorem Member.ComesBack.sites_subset (kind : Signature.Kind) {member result : Member}
    (comes : member.ComesBack pool result) : result.sites kind ⊆ member.sites kind := by
  rw [Member.sites, Member.sites, comes.descriptor]
  exact List.cons_subset_cons _ (comes.attributes.sites_subset kind)

theorem ClassModel.ComesBack.sites_subset {model result : ClassModel}
    (comes : model.ComesBack pool result) : result.sites ⊆ model.sites := by
  have methods := flatMap_subset_of_forall₂ (fun _ _ here => here.sites_subset .method) comes.methods
  have fields := flatMap_subset_of_forall₂ (fun _ _ here => here.sites_subset .field) comes.fields
  rw [sites, sites, comes.header]
  apply append_subset_append _ methods
  apply append_subset_append _ fields
  exact append_subset_append (List.Subset.refl _) (comes.attributes.sites_subset .type)

end Back

end ClassRenaming
