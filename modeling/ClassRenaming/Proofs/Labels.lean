import ClassRenaming.Proofs.ComesBack
import ClassRenaming.Proofs.MappedTexts
import ClassRenaming.Proofs.SettledClasses
import Mathlib.Data.List.Flatten

/-!
The texts of a class that name no class, in the order of the model: those of string constants, and
names of members, of annotation elements, of local variables and of attributes that are not
understood. Settling collisions takes some of them away, with the annotations that they stand in;
writing a class keeps every one in its place. Those outside annotations and instructions last.
-/

namespace ClassRenaming

/-- A text that names no class. -/
inductive Label where
  /-- The text of a string constant. -/
  | string (text : String)
  /-- A name, or any text in a constant value that is no string. -/
  | name (text : String)
  deriving DecidableEq, Repr

namespace Label

def mapTexts (m : TextMap) : Label → Label
  | string text => string (m.dotted text)
  | name text => name (m.name text)

def asName : Label → Label
  | string text | name text => name text

end Label

mutual

def Constant.labels : Constant → List Label
  | .integer _ | .float _ | .long _ | .double _ | .classRef _ | .methodType _ => []
  | .string text => [.string text]
  | .methodHandle handle => [.name handle.member.name]
  | .dynamic name _ ⟨method, arguments⟩ =>
    .name name :: .name method.member.name :: Constant.listLabels arguments

def Constant.listLabels : List Constant → List Label
  | [] => []
  | first :: rest => first.labels ++ Constant.listLabels rest

end

def bootstrapLabels (bootstrap : BootstrapMethod) : List Label :=
  .name bootstrap.method.member.name :: Constant.listLabels bootstrap.arguments

mutual

def ElementValue.labels : ElementValue → List Label
  | .byte _ | .char _ | .short _ | .int _ | .long _ | .float _ | .double _ | .boolean _
  | .classLiteral _ => []
  | .string text => [.string text]
  | .enumConstant _ name => [.name name]
  | .nested _ elements => ElementValue.elementLabels elements
  | .array values => ElementValue.listLabels values

def ElementValue.elementLabels : List (String × ElementValue) → List Label
  | [] => []
  | (name, value) :: rest => .name name :: value.labels ++ ElementValue.elementLabels rest

def ElementValue.listLabels : List ElementValue → List Label
  | [] => []
  | value :: rest => value.labels ++ ElementValue.listLabels rest

end

def Annotation.labels (item : Annotation) : List Label := ElementValue.elementLabels item.elements

def TypeAnnotation.labels (item : TypeAnnotation) : List Label := item.value.labels

def Instruction.labels : Instruction → List Label
  | .load _ constant => constant.labels
  | .field _ member | .method _ member _ => [.name member.name]
  | .invokeDynamic name _ bootstrap => .name name :: bootstrapLabels bootstrap
  | _ => []

def CodeAttribute.labels : CodeAttribute → List Label
  | .localVariables entries | .localVariableTypes entries => entries.map fun entry => .name entry.name
  | .typeAnnotations _ entries => entries.flatMap TypeAnnotation.labels
  | .unknown name _ => [.name name]
  | .stackMap _ | .lineNumbers _ => []

def Code.labels (code : Code) : List Label :=
  code.instructions.flatMap (·.instruction.labels) ++ code.attributes.flatMap CodeAttribute.labels

def InnerClass.labels (entry : InnerClass) : List Label := entry.name.toList.map .name

mutual

def Attribute.labels : Attribute → List Label
  | .constantValue (.string text) => [.string text]
  | .constantValue constant => constant.labels.map Label.asName
  | .annotations _ entries => entries.flatMap Annotation.labels
  | .parameterAnnotations _ parameters => parameters.flatten.flatMap Annotation.labels
  | .typeAnnotations _ entries => entries.flatMap TypeAnnotation.labels
  | .annotationDefault value => value.labels
  | .record components => Attribute.componentLabels components
  | .innerClasses classes => classes.flatMap InnerClass.labels
  | .enclosingMethod _ method => method.toList.map fun (name, _) => .name name
  | .code body => body.labels
  | .unknown name _ => [.name name]
  | .signature _ | .exceptions _ | .nestHost _ | .nestMembers _ | .permittedSubclasses _
  | .bootstrapMethods => []

def Attribute.componentLabels : List (RecordComponent Attribute) → List Label
  | [] => []
  | ⟨name, _, attributes⟩ :: rest =>
    .name name :: Attribute.listLabels attributes ++ Attribute.componentLabels rest

def Attribute.listLabels : List Attribute → List Label
  | [] => []
  | first :: rest => first.labels ++ Attribute.listLabels rest

end

def Member.labels (member : Member) : List Label :=
  .name member.name :: Attribute.listLabels member.attributes

def ClassModel.labels (model : ClassModel) : List Label :=
  model.fields.flatMap Member.labels ++ model.methods.flatMap Member.labels ++
    Attribute.listLabels model.attributes

/-! The labels that nothing takes away: those outside annotations and instructions. -/

def CodeAttribute.lasting : CodeAttribute → List Label
  | .typeAnnotations _ _ => []
  | item => item.labels

mutual

def Attribute.lasting : Attribute → List Label
  | .annotations _ _ | .parameterAnnotations _ _ | .typeAnnotations _ _ => []
  | .record components => Attribute.componentLasting components
  | .code body => body.attributes.flatMap CodeAttribute.lasting
  | item => item.labels

def Attribute.componentLasting : List (RecordComponent Attribute) → List Label
  | [] => []
  | ⟨name, _, attributes⟩ :: rest =>
    .name name :: Attribute.listLasting attributes ++ Attribute.componentLasting rest

def Attribute.listLasting : List Attribute → List Label
  | [] => []
  | first :: rest => first.lasting ++ Attribute.listLasting rest

end

def Member.lasting (member : Member) : List Label :=
  .name member.name :: Attribute.listLasting member.attributes

theorem CodeAttribute.lasting_sublist (item : CodeAttribute) :
    item.lasting.Sublist item.labels := by
  cases item with
  | typeAnnotations visibility entries => exact List.nil_sublist _
  | _ => exact List.Sublist.refl _

mutual

theorem Attribute.lasting_sublist : ∀ item : Attribute, item.lasting.Sublist item.labels
  | .annotations _ _ | .parameterAnnotations _ _ | .typeAnnotations _ _ => List.nil_sublist _
  | .record components => Attribute.componentLasting_sublist components
  | .code _ => (List.Sublist.flatMap_right _ fun item _ => item.lasting_sublist).trans
      (List.sublist_append_right _ _)
  | .signature _ | .constantValue _ | .exceptions _ | .annotationDefault _ | .innerClasses _
  | .enclosingMethod _ _ | .nestHost _ | .nestMembers _ | .permittedSubclasses _
  | .bootstrapMethods | .unknown _ _ => List.Sublist.refl _

theorem Attribute.componentLasting_sublist : ∀ components : List (RecordComponent Attribute),
    (Attribute.componentLasting components).Sublist (Attribute.componentLabels components)
  | [] => List.Sublist.refl _
  | ⟨_, _, attributes⟩ :: rest =>
    ((Attribute.listLasting_sublist attributes).cons_cons _).append
      (Attribute.componentLasting_sublist rest)

theorem Attribute.listLasting_sublist : ∀ attributes : List Attribute,
    (Attribute.listLasting attributes).Sublist (Attribute.listLabels attributes)
  | [] => List.Sublist.refl _
  | first :: rest => first.lasting_sublist.append (Attribute.listLasting_sublist rest)

end

theorem Member.lasting_sublist (member : Member) : member.lasting.Sublist member.labels :=
  (Attribute.listLasting_sublist member.attributes).cons_cons _

/-! The labels of what is mapped are the labels, mapped. -/

section Mapped

variable (m : TextMap)

mutual

theorem Constant.labels_mapTexts : ∀ constant : Constant,
    (constant.mapTexts m).labels = constant.labels.map (Label.mapTexts m)
  | .integer _ | .float _ | .long _ | .double _ | .string _ | .classRef _ | .methodType _
  | .methodHandle _ => rfl
  | .dynamic name descriptor ⟨method, arguments⟩ => by
    simp only [Constant.mapTexts, Constant.labels, Constant.listLabels_mapTexts arguments,
      List.map_cons]
    rfl

theorem Constant.listLabels_mapTexts : ∀ constants : List Constant,
    Constant.listLabels (Constant.mapTextsList m constants) =
      (Constant.listLabels constants).map (Label.mapTexts m)
  | [] => rfl
  | first :: rest => by
    simp only [Constant.mapTextsList, Constant.listLabels, Constant.labels_mapTexts first,
      Constant.listLabels_mapTexts rest, List.map_append]

end

theorem bootstrapLabels_mapTexts (bootstrap : BootstrapMethod) :
    bootstrapLabels (mapBootstrapTexts m bootstrap) =
      (bootstrapLabels bootstrap).map (Label.mapTexts m) := by
  simp only [bootstrapLabels, mapBootstrapTexts, Constant.listLabels_mapTexts, List.map_cons]
  rfl

mutual

theorem ElementValue.labels_mapTexts : ∀ value : ElementValue,
    (value.mapTexts m).labels = value.labels.map (Label.mapTexts m)
  | .byte _ | .char _ | .short _ | .int _ | .long _ | .float _ | .double _ | .boolean _
  | .string _ | .enumConstant .. | .classLiteral _ => rfl
  | .nested descriptor elements => by
    simp only [ElementValue.mapTexts, ElementValue.labels,
      ElementValue.elementLabels_mapTexts elements]
  | .array values => by
    simp only [ElementValue.mapTexts, ElementValue.labels, ElementValue.listLabels_mapTexts values]

theorem ElementValue.elementLabels_mapTexts : ∀ elements : List (String × ElementValue),
    ElementValue.elementLabels (ElementValue.mapTextsElements m elements) =
      (ElementValue.elementLabels elements).map (Label.mapTexts m)
  | [] => rfl
  | (name, value) :: rest => by
    simp only [ElementValue.mapTextsElements, ElementValue.elementLabels,
      ElementValue.labels_mapTexts value, ElementValue.elementLabels_mapTexts rest, List.map_append,
      List.map_cons]
    rfl

theorem ElementValue.listLabels_mapTexts : ∀ values : List ElementValue,
    ElementValue.listLabels (ElementValue.mapTextsList m values) =
      (ElementValue.listLabels values).map (Label.mapTexts m)
  | [] => rfl
  | value :: rest => by
    simp only [ElementValue.mapTextsList, ElementValue.listLabels,
      ElementValue.labels_mapTexts value, ElementValue.listLabels_mapTexts rest, List.map_append]

end

theorem Annotation.labels_mapTexts (item : Annotation) :
    (item.mapTexts m).labels = item.labels.map (Label.mapTexts m) :=
  ElementValue.elementLabels_mapTexts m item.elements

theorem TypeAnnotation.labels_mapTexts (item : TypeAnnotation) :
    (item.mapTexts m).labels = item.labels.map (Label.mapTexts m) :=
  Annotation.labels_mapTexts m item.value

theorem Instruction.labels_mapTexts (instruction : Instruction) :
    (instruction.mapTexts m).labels = instruction.labels.map (Label.mapTexts m) := by
  cases instruction with
  | load opcode constant => exact Constant.labels_mapTexts m constant
  | invokeDynamic name descriptor bootstrap =>
    exact congrArg (Label.name (m.name name) :: ·) (bootstrapLabels_mapTexts m bootstrap)
  | _ => rfl

theorem CodeAttribute.labels_mapTexts (item : CodeAttribute) :
    (item.mapTexts m).labels = item.labels.map (Label.mapTexts m) := by
  cases item with
  | localVariables entries | localVariableTypes entries =>
    simp only [CodeAttribute.mapTexts, CodeAttribute.labels, List.map_map]
    rfl
  | typeAnnotations visibility entries =>
    exact flatMap_mapped (·.labels_mapTexts m) entries
  | _ => rfl

theorem Code.labels_mapTexts (code : Code) :
    (code.mapTexts m).labels = code.labels.map (Label.mapTexts m) := by
  have instructions := flatMap_mapped (f := Placed.mapTexts m) (s := (·.instruction.labels))
    (fun placed => Instruction.labels_mapTexts m placed.instruction) code.instructions
  have attributes := flatMap_mapped (CodeAttribute.labels_mapTexts m) code.attributes
  rw [Code.labels, Code.labels, List.map_append, ← attributes, ← instructions]
  rfl

theorem InnerClass.labels_mapTexts (entry : InnerClass) :
    (entry.mapTexts m).labels = entry.labels.map (Label.mapTexts m) := by
  obtain ⟨inner, outer, name, access⟩ := entry
  cases name <;> rfl

theorem Constant.asName_labels_mapTexts (constant : Constant) :
    (constant.mapTexts (.all m.name)).labels.map Label.asName =
      (constant.labels.map Label.asName).map (Label.mapTexts m) := by
  rw [Constant.labels_mapTexts, List.map_map, List.map_map]
  apply List.map_congr_left
  intro label _
  cases label <;> rfl

mutual

theorem Attribute.labels_mapTexts (kind : Signature.Kind) : ∀ item : Attribute,
    (item.mapTexts m kind).labels = item.labels.map (Label.mapTexts m)
  | .signature _ | .nestHost _ | .bootstrapMethods | .unknown _ _ | .exceptions _ | .nestMembers _
  | .permittedSubclasses _ => rfl
  | .constantValue constant => by
    have alone := constant.asName_labels_mapTexts m
    cases constant with
    | string text => rfl
    | _ => exact alone
  | .annotations _ entries => flatMap_mapped (·.labels_mapTexts m) entries
  | .parameterAnnotations _ parameters => by
    have all := flatMap_mapped (·.labels_mapTexts m) parameters.flatten
    rw [List.map_flatten] at all
    exact all
  | .typeAnnotations _ entries =>
    flatMap_mapped (·.labels_mapTexts m) entries
  | .annotationDefault value => ElementValue.labels_mapTexts m value
  | .record components => Attribute.componentLabels_mapTexts components
  | .innerClasses classes => flatMap_mapped (InnerClass.labels_mapTexts m) classes
  | .enclosingMethod _ none | .enclosingMethod _ (some _) => rfl
  | .code body => Code.labels_mapTexts m body

theorem Attribute.componentLabels_mapTexts : ∀ components : List (RecordComponent Attribute),
    Attribute.componentLabels (Attribute.mapTextsComponents m components) =
      (Attribute.componentLabels components).map (Label.mapTexts m)
  | [] => rfl
  | ⟨name, descriptor, attributes⟩ :: rest => by
    simp only [Attribute.mapTextsComponents, Attribute.componentLabels,
      Attribute.listLabels_mapTexts .field attributes, Attribute.componentLabels_mapTexts rest,
      List.map_append, List.map_cons]
    rfl

theorem Attribute.listLabels_mapTexts (kind : Signature.Kind) : ∀ attributes : List Attribute,
    Attribute.listLabels (Attribute.mapTextsList m kind attributes) =
      (Attribute.listLabels attributes).map (Label.mapTexts m)
  | [] => rfl
  | first :: rest => by
    simp only [Attribute.mapTextsList, Attribute.listLabels, Attribute.labels_mapTexts kind first,
      Attribute.listLabels_mapTexts kind rest, List.map_append]

end

theorem Member.labels_mapTexts (kind : Signature.Kind) (member : Member) :
    (member.mapTexts m kind).labels = member.labels.map (Label.mapTexts m) :=
  congrArg (Label.name (m.name member.name) :: ·) (Attribute.listLabels_mapTexts m kind _)

theorem CodeAttribute.lasting_mapTexts (item : CodeAttribute) :
    (item.mapTexts m).lasting = item.lasting.map (Label.mapTexts m) := by
  have all := item.labels_mapTexts m
  cases item with
  | typeAnnotations visibility entries => rfl
  | _ => exact all

mutual

theorem Attribute.lasting_mapTexts (kind : Signature.Kind) : ∀ item : Attribute,
    (item.mapTexts m kind).lasting = item.lasting.map (Label.mapTexts m)
  | .annotations _ _ | .parameterAnnotations _ _ | .typeAnnotations _ _ => rfl
  | .record components => Attribute.componentLasting_mapTexts components
  | .code body => flatMap_mapped (CodeAttribute.lasting_mapTexts m) body.attributes
  | .signature text => Attribute.labels_mapTexts m kind (.signature text)
  | .constantValue constant => by
    have all := Attribute.labels_mapTexts m kind (.constantValue constant)
    cases constant <;> exact all
  | .exceptions names => Attribute.labels_mapTexts m kind (.exceptions names)
  | .annotationDefault value => Attribute.labels_mapTexts m kind (.annotationDefault value)
  | .innerClasses classes => Attribute.labels_mapTexts m kind (.innerClasses classes)
  | .enclosingMethod owner method =>
    Attribute.labels_mapTexts m kind (.enclosingMethod owner method)
  | .nestHost _ | .nestMembers _ | .permittedSubclasses _ | .bootstrapMethods | .unknown _ _ => rfl

theorem Attribute.componentLasting_mapTexts : ∀ components : List (RecordComponent Attribute),
    Attribute.componentLasting (Attribute.mapTextsComponents m components) =
      (Attribute.componentLasting components).map (Label.mapTexts m)
  | [] => rfl
  | ⟨name, descriptor, attributes⟩ :: rest => by
    simp only [Attribute.mapTextsComponents, Attribute.componentLasting,
      Attribute.listLasting_mapTexts .field attributes, Attribute.componentLasting_mapTexts rest,
      List.map_append, List.map_cons]
    rfl

theorem Attribute.listLasting_mapTexts (kind : Signature.Kind) : ∀ attributes : List Attribute,
    Attribute.listLasting (Attribute.mapTextsList m kind attributes) =
      (Attribute.listLasting attributes).map (Label.mapTexts m)
  | [] => rfl
  | first :: rest => by
    simp only [Attribute.mapTextsList, Attribute.listLasting, Attribute.lasting_mapTexts kind first,
      Attribute.listLasting_mapTexts kind rest, List.map_append]

end

theorem Member.lasting_mapTexts (kind : Signature.Kind) (member : Member) :
    (member.mapTexts m kind).lasting = member.lasting.map (Label.mapTexts m) :=
  congrArg (Label.name (m.name member.name) :: ·) (Attribute.listLasting_mapTexts m kind _)

theorem ClassModel.labels_mapTexts (model : ClassModel) :
    (model.mapTexts m).labels = model.labels.map (Label.mapTexts m) := by
  rw [ClassModel.labels, ClassModel.labels, List.map_append, List.map_append,
    ← flatMap_mapped (Member.labels_mapTexts m .field),
    ← flatMap_mapped (Member.labels_mapTexts m .method),
    ← Attribute.listLabels_mapTexts m .type]
  rfl

end Mapped

/-! What is left of a class has some of its labels. -/

section Left

theorem CodeAttribute.Leaves.labels_sublist {item left : CodeAttribute}
    (leaves : item.Leaves (some left)) : left.labels.Sublist item.labels := by
  cases item
  case typeAnnotations =>
    obtain gone | ⟨kept, same, fewer⟩ := leaves
    · cases gone
    cases same
    exact fewer.flatMap _
  all_goals
    cases leaves
    exact List.Sublist.refl _

theorem CodeAttribute.AllLeave.labels_sublist {attributes left : List CodeAttribute}
    (leave : AllLeave attributes left) :
    (left.flatMap CodeAttribute.labels).Sublist (attributes.flatMap CodeAttribute.labels) := by
  induction attributes generalizing left with
  | nil =>
    cases leave
    exact List.Sublist.refl _
  | cons first rest ih =>
    obtain ⟨one, others, rfl, here, there⟩ := leave
    rw [List.flatMap_append, List.flatMap_cons]
    refine List.Sublist.append ?_ (ih there)
    cases one with
    | none => exact List.nil_sublist _
    | some left =>
      rw [Option.toList_some, List.flatMap_singleton]
      exact here.labels_sublist

theorem Code.Leaves.labels_sublist {code left : Code} (leaves : code.Leaves left) :
    left.labels.Sublist code.labels := by
  obtain ⟨kept, rfl, leave⟩ := leaves
  exact (List.Sublist.refl _).append leave.labels_sublist

mutual

theorem Attribute.Leaves.labels_sublist : ∀ {item left : Attribute},
    item.Leaves (some left) → left.labels.Sublist item.labels
  | .exceptions _, _, ⟨_, rfl, _⟩ => List.Sublist.refl _
  | .annotations _ _, _, .inr ⟨_, rfl, fewer⟩ => fewer.flatMap _
  | .parameterAnnotations _ _, _, ⟨_, rfl, fewer⟩ => (sublist_flatten fewer).flatMap _
  | .typeAnnotations _ _, _, .inr ⟨_, rfl, fewer⟩ => fewer.flatMap _
  | .record _, _, ⟨_, rfl, leave⟩ => Attribute.ComponentsLeave.labels_sublist leave
  | .code _, _, ⟨_, rfl, leaves⟩ => leaves.labels_sublist
  | .signature _, _, rfl | .constantValue _, _, rfl | .annotationDefault _, _, rfl
  | .innerClasses _, _, rfl | .enclosingMethod _ _, _, rfl | .nestHost _, _, rfl
  | .nestMembers _, _, rfl | .permittedSubclasses _, _, rfl | .bootstrapMethods, _, rfl
  | .unknown _ _, _, rfl => List.Sublist.refl _

theorem Attribute.ComponentsLeave.labels_sublist :
    ∀ {components left : List (RecordComponent Attribute)},
      Attribute.ComponentsLeave components left →
        (Attribute.componentLabels left).Sublist (Attribute.componentLabels components)
  | [], _, rfl => List.Sublist.refl _
  | _ :: _, _, ⟨_, _, rfl, here, there⟩ =>
    ((Attribute.AllLeave.labels_sublist here).cons_cons _).append
      (Attribute.ComponentsLeave.labels_sublist there)

theorem Attribute.AllLeave.labels_sublist :
    ∀ {attributes left : List Attribute}, Attribute.AllLeave attributes left →
      (Attribute.listLabels left).Sublist (Attribute.listLabels attributes)
  | [], _, rfl => List.Sublist.refl _
  | _ :: _, _, ⟨none, _, rfl, _, there⟩ =>
    (Attribute.AllLeave.labels_sublist there).trans (List.sublist_append_right _ _)
  | _ :: _, _, ⟨some _, _, rfl, here, there⟩ =>
    (Attribute.Leaves.labels_sublist here).append (Attribute.AllLeave.labels_sublist there)

end

theorem CodeAttribute.AllLeave.lasting_eq {attributes left : List CodeAttribute}
    (leave : AllLeave attributes left) :
    left.flatMap CodeAttribute.lasting = attributes.flatMap CodeAttribute.lasting := by
  induction attributes generalizing left with
  | nil =>
    cases leave
    rfl
  | cons first rest ih =>
    obtain ⟨one, others, rfl, here, there⟩ := leave
    rw [List.flatMap_append, List.flatMap_cons, ih there]
    congr 1
    cases first
    case typeAnnotations =>
      obtain rfl | ⟨kept, rfl, -⟩ := here <;> rfl
    all_goals
      cases here
      exact List.append_nil _

mutual

theorem Attribute.Leaves.lasting_eq : ∀ {item : Attribute} {left : Option Attribute},
    item.Leaves left → Attribute.listLasting left.toList = item.lasting
  | .annotations _ _, _, .inl rfl | .annotations _ _, _, .inr ⟨_, rfl, _⟩
  | .typeAnnotations _ _, _, .inl rfl | .typeAnnotations _ _, _, .inr ⟨_, rfl, _⟩
  | .parameterAnnotations _ _, _, ⟨_, rfl, _⟩ | .exceptions _, _, ⟨_, rfl, _⟩ => rfl
  | .record _, _, ⟨_, rfl, leave⟩ =>
    (List.append_nil _).trans (Attribute.ComponentsLeave.lasting_eq leave)
  | .code _, _, ⟨_, rfl, _, rfl, leave⟩ => (List.append_nil _).trans leave.lasting_eq
  | .signature _, _, rfl | .constantValue _, _, rfl | .annotationDefault _, _, rfl
  | .innerClasses _, _, rfl | .enclosingMethod _ _, _, rfl | .nestHost _, _, rfl
  | .nestMembers _, _, rfl | .permittedSubclasses _, _, rfl | .bootstrapMethods, _, rfl
  | .unknown _ _, _, rfl => List.append_nil _

theorem Attribute.ComponentsLeave.lasting_eq :
    ∀ {components left : List (RecordComponent Attribute)},
      Attribute.ComponentsLeave components left →
        Attribute.componentLasting left = Attribute.componentLasting components
  | [], _, rfl => rfl
  | ⟨_, _, _⟩ :: _, _, ⟨_, _, rfl, here, there⟩ => by
    rw [Attribute.componentLasting, Attribute.componentLasting, Attribute.AllLeave.lasting_eq here,
      Attribute.ComponentsLeave.lasting_eq there]

theorem Attribute.AllLeave.lasting_eq :
    ∀ {attributes left : List Attribute}, Attribute.AllLeave attributes left →
      Attribute.listLasting left = Attribute.listLasting attributes
  | [], _, rfl => rfl
  | _ :: _, _, ⟨one, _, rfl, here, there⟩ => by
    rw [Attribute.listLasting, ← Attribute.Leaves.lasting_eq here,
      ← Attribute.AllLeave.lasting_eq there]
    cases one with
    | none => rfl
    | some left => exact congrArg (· ++ _) (List.append_nil _).symm

end

end Left

/-! What a class comes back as has its labels. -/

section Back

mutual

theorem Constant.labels_normal : ∀ constant : Constant, constant.normal.labels = constant.labels
  | .integer _ | .float _ | .long _ | .double _ | .string _ | .classRef _ | .methodType _ => rfl
  | .methodHandle handle => by
    rw [Constant.normal, Constant.labels, MethodHandle.member_normal, Constant.labels]
  | .dynamic name descriptor ⟨method, arguments⟩ => by
    simp only [Constant.normal, Constant.labels, MethodHandle.member_normal,
      Constant.listLabels_normal arguments]

theorem Constant.listLabels_normal : ∀ constants : List Constant,
    Constant.listLabels (Constant.normalList constants) = Constant.listLabels constants
  | [] => rfl
  | first :: rest => by
    rw [Constant.normalList, Constant.listLabels, Constant.labels_normal first,
      Constant.listLabels_normal rest, Constant.listLabels]

end

theorem Instruction.labels_moved (move : Nat → Nat) (operand : Option UInt16)
    (instruction : Instruction) : (instruction.moved move operand).labels = instruction.labels := by
  cases instruction with
  | load opcode constant => exact Constant.labels_normal constant
  | invokeDynamic name descriptor bootstrap =>
    rw [Instruction.moved, Instruction.labels, bootstrapLabels, normalBootstrap,
      MethodHandle.member_normal, Constant.listLabels_normal]
    rfl
  | _ => rfl

theorem CodeAttribute.labels_moved (move : Nat → Nat) (item : CodeAttribute) :
    (item.moved move).labels = item.labels := by
  cases item with
  | localVariables entries | localVariableTypes entries => exact List.map_map
  | typeAnnotations visibility entries => exact List.flatMap_map _ _ _
  | _ => rfl

theorem map_fst_zip_sublist {α β : Type} (items : List α) (others : List β) :
    ((items.zip others).map Prod.fst).Sublist items := by
  induction items generalizing others with
  | nil => exact List.Sublist.refl _
  | cons item items ih =>
    cases others with
    | nil => exact List.nil_sublist _
    | cons other others => exact (ih others).cons_cons item

theorem Code.ComesBack.labels_sublist {pool : ConstantPool} {code result : Code}
    (comes : code.ComesBack pool result) : result.labels.Sublist code.labels := by
  obtain ⟨operands, layout, -, -, rfl⟩ := comes
  have kept := ((map_fst_zip_sublist _ layout.starts).map Prod.fst).trans
    (map_fst_zip_sublist code.instructions operands)
  have attributes : ∀ item, (CodeAttribute.moved layout.move item).labels = item.labels :=
    CodeAttribute.labels_moved layout.move
  apply List.Sublist.append
  · have fewer := kept.flatMap fun placed => placed.instruction.labels
    simp only [List.flatMap_map] at fewer
    simpa only [Code.moved, List.flatMap_map, Instruction.labels_moved] using fewer
  · simp only [Code.moved, List.flatMap_map, attributes]
    exact List.Sublist.refl _

variable {pool : ConstantPool}

mutual

theorem Attribute.ComesBack.labels_sublist : ∀ {item result : Attribute},
    item.ComesBack pool result → result.labels.Sublist item.labels
  | .constantValue constant, _, rfl => by
    have same := Constant.labels_normal constant
    cases constant with
    | methodHandle handle | dynamic name descriptor bootstrap =>
      exact (congrArg (List.map Label.asName) same).subst (List.Sublist.refl _)
    | _ => exact List.Sublist.refl _
  | .record _, _, ⟨_, rfl, come⟩ => Attribute.ComponentsComeBack.labels_sublist come
  | .code _, _, ⟨_, rfl, comes⟩ => comes.labels_sublist
  | .signature _, _, rfl | .exceptions _, _, rfl | .annotations _ _, _, rfl
  | .parameterAnnotations _ _, _, rfl | .typeAnnotations _ _, _, rfl
  | .annotationDefault _, _, rfl | .innerClasses _, _, rfl | .enclosingMethod _ _, _, rfl
  | .nestHost _, _, rfl | .nestMembers _, _, rfl | .permittedSubclasses _, _, rfl
  | .bootstrapMethods, _, rfl | .unknown _ _, _, rfl => List.Sublist.refl _

theorem Attribute.ComponentsComeBack.labels_sublist :
    ∀ {components results : List (RecordComponent Attribute)},
      Attribute.ComponentsComeBack pool components results →
        (Attribute.componentLabels results).Sublist (Attribute.componentLabels components)
  | [], _, rfl => List.Sublist.refl _
  | _ :: _, _, ⟨_, _, rfl, here, there⟩ =>
    ((Attribute.AllComeBack.labels_sublist here).cons_cons _).append
      (Attribute.ComponentsComeBack.labels_sublist there)

theorem Attribute.AllComeBack.labels_sublist :
    ∀ {attributes results : List Attribute}, Attribute.AllComeBack pool attributes results →
      (Attribute.listLabels results).Sublist (Attribute.listLabels attributes)
  | [], _, rfl => List.Sublist.refl _
  | _ :: _, _, ⟨_, _, rfl, here, there⟩ =>
    (Attribute.ComesBack.labels_sublist here).append (Attribute.AllComeBack.labels_sublist there)

end

theorem CodeAttribute.lasting_moved (move : Nat → Nat) (item : CodeAttribute) :
    (item.moved move).lasting = item.lasting := by
  have all := item.labels_moved move
  cases item with
  | typeAnnotations visibility entries => rfl
  | _ => exact all

mutual

theorem Attribute.ComesBack.lasting_eq : ∀ {item result : Attribute},
    item.ComesBack pool result → result.lasting = item.lasting
  | .constantValue constant, _, rfl => by
    have same := congrArg (List.map Label.asName) (Constant.labels_normal constant)
    cases constant with
    | methodHandle handle | dynamic name descriptor bootstrap => exact same
    | _ => rfl
  | .record _, _, ⟨_, rfl, come⟩ => Attribute.ComponentsComeBack.lasting_eq come
  | .code _, _, ⟨_, rfl, comes⟩ => by
    obtain ⟨operands, layout, -, -, rfl⟩ := comes
    simp only [Attribute.lasting, Code.moved, List.flatMap_map, CodeAttribute.lasting_moved]
  | .signature _, _, rfl | .exceptions _, _, rfl | .annotations _ _, _, rfl
  | .parameterAnnotations _ _, _, rfl | .typeAnnotations _ _, _, rfl
  | .annotationDefault _, _, rfl | .innerClasses _, _, rfl | .enclosingMethod _ _, _, rfl
  | .nestHost _, _, rfl | .nestMembers _, _, rfl | .permittedSubclasses _, _, rfl
  | .bootstrapMethods, _, rfl | .unknown _ _, _, rfl => rfl

theorem Attribute.ComponentsComeBack.lasting_eq :
    ∀ {components results : List (RecordComponent Attribute)},
      Attribute.ComponentsComeBack pool components results →
        Attribute.componentLasting results = Attribute.componentLasting components
  | [], _, rfl => rfl
  | ⟨_, _, _⟩ :: _, _, ⟨_, _, rfl, here, there⟩ => by
    rw [Attribute.componentLasting, Attribute.componentLasting,
      Attribute.AllComeBack.lasting_eq here, Attribute.ComponentsComeBack.lasting_eq there]

theorem Attribute.AllComeBack.lasting_eq :
    ∀ {attributes results : List Attribute}, Attribute.AllComeBack pool attributes results →
      Attribute.listLasting results = Attribute.listLasting attributes
  | [], _, rfl => rfl
  | _ :: _, _, ⟨_, _, rfl, here, there⟩ => by
    rw [Attribute.listLasting, Attribute.listLasting, Attribute.ComesBack.lasting_eq here,
      Attribute.AllComeBack.lasting_eq there]

end

end Back

end ClassRenaming
