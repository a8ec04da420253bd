import ClassRenaming.Proofs.FirstAnnotations
import ClassRenaming.Proofs.Idempotence
import ClassRenaming.Proofs.MappedTexts
import ClassRenaming.Proofs.SettledClasses
import ClassRenaming.Proofs.SignatureNames
import ClassRenaming.Relocation

/-!
Renaming changes the reference sites of a class and nothing else. With every site blanked out a class
is what it was, and each site has become what the table makes of it: a name, a descriptor or a
display name the text with its sources replaced, a signature its tree with every class name renamed.
-/

namespace ClassRenaming

/-! Mapping texts twice is mapping them once. -/

section Twice

variable (n m : TextMap)

def TextMap.after (n m : TextMap) : TextMap :=
  ⟨n.binary ∘ m.binary, n.dotted ∘ m.dotted, n.name ∘ m.name,
    fun kind => n.signature kind ∘ m.signature kind⟩

theorem MethodHandle.mapTexts_mapTexts (handle : MethodHandle) :
    (handle.mapTexts m).mapTexts n = handle.mapTexts (n.after m) := rfl

mutual

theorem Constant.mapTexts_mapTexts : ∀ constant : Constant,
    (constant.mapTexts m).mapTexts n = constant.mapTexts (n.after m)
  | .integer _ | .float _ | .long _ | .double _ | .string _ | .classRef _ | .methodType _
  | .methodHandle _ => rfl
  | .dynamic name descriptor ⟨method, arguments⟩ => by
    simp only [Constant.mapTexts, Constant.mapTextsList_mapTextsList arguments,
      MethodHandle.mapTexts_mapTexts]
    rfl

theorem Constant.mapTextsList_mapTextsList : ∀ constants : List Constant,
    Constant.mapTextsList n (Constant.mapTextsList m constants) =
      Constant.mapTextsList (n.after m) constants
  | [] => rfl
  | first :: rest => by
    simp only [Constant.mapTextsList, Constant.mapTexts_mapTexts first,
      Constant.mapTextsList_mapTextsList rest]

end

theorem mapBootstrapTexts_mapBootstrapTexts (bootstrap : BootstrapMethod) :
    mapBootstrapTexts n (mapBootstrapTexts m bootstrap) = mapBootstrapTexts (n.after m) bootstrap := by
  simp only [mapBootstrapTexts, MethodHandle.mapTexts_mapTexts, Constant.mapTextsList_mapTextsList]

mutual

theorem ElementValue.mapTexts_mapTexts : ∀ value : ElementValue,
    (value.mapTexts m).mapTexts n = value.mapTexts (n.after m)
  | .byte _ | .char _ | .short _ | .int _ | .long _ | .float _ | .double _ | .boolean _
  | .string _ | .enumConstant .. | .classLiteral _ => rfl
  | .nested descriptor elements => by
    simp only [ElementValue.mapTexts, ElementValue.mapTextsElements_mapTextsElements elements]
    rfl
  | .array values => by
    simp only [ElementValue.mapTexts, ElementValue.mapTextsList_mapTextsList values]

theorem ElementValue.mapTextsElements_mapTextsElements : ∀ elements : List (String × ElementValue),
    ElementValue.mapTextsElements n (ElementValue.mapTextsElements m elements) =
      ElementValue.mapTextsElements (n.after m) elements
  | [] => rfl
  | (name, value) :: rest => by
    simp only [ElementValue.mapTextsElements, ElementValue.mapTexts_mapTexts value,
      ElementValue.mapTextsElements_mapTextsElements rest]
    rfl

theorem ElementValue.mapTextsList_mapTextsList : ∀ values : List ElementValue,
    ElementValue.mapTextsList n (ElementValue.mapTextsList m values) =
      ElementValue.mapTextsList (n.after m) values
  | [] => rfl
  | value :: rest => by
    simp only [ElementValue.mapTextsList, ElementValue.mapTexts_mapTexts value,
      ElementValue.mapTextsList_mapTextsList rest]

end

theorem Annotation.mapTexts_mapTexts (item : Annotation) :
    (item.mapTexts m).mapTexts n = item.mapTexts (n.after m) := by
  simp only [mapTexts, ElementValue.mapTextsElements_mapTextsElements]
  rfl

theorem TypeAnnotation.mapTexts_mapTexts (item : TypeAnnotation) :
    (item.mapTexts m).mapTexts n = item.mapTexts (n.after m) := by
  simp only [mapTexts, Annotation.mapTexts_mapTexts]

theorem VerificationType.mapTexts_mapTexts (type : VerificationType) :
    (type.mapTexts m).mapTexts n = type.mapTexts (n.after m) := by
  cases type <;> rfl

theorem Frame.mapTexts_mapTexts (frame : Frame) :
    (frame.mapTexts m).mapTexts n = frame.mapTexts (n.after m) := by
  have types : VerificationType.mapTexts n ∘ VerificationType.mapTexts m =
      VerificationType.mapTexts (n.after m) := funext (VerificationType.mapTexts_mapTexts n m)
  obtain ⟨offset, kind⟩ := frame
  cases kind <;>
    simp only [Frame.mapTexts, FrameKind.map, List.map_map, types,
      VerificationType.mapTexts_mapTexts]

theorem Instruction.mapTexts_mapTexts (instruction : Instruction) :
    (instruction.mapTexts m).mapTexts n = instruction.mapTexts (n.after m) := by
  cases instruction with
  | load opcode constant => exact congrArg _ (Constant.mapTexts_mapTexts n m constant)
  | invokeDynamic name descriptor bootstrap =>
    exact congrArg _ (mapBootstrapTexts_mapBootstrapTexts n m bootstrap)
  | _ => rfl

theorem CodeAttribute.mapTexts_mapTexts (item : CodeAttribute) :
    (item.mapTexts m).mapTexts n = item.mapTexts (n.after m) := by
  cases item with
  | stackMap frames =>
    simp only [CodeAttribute.mapTexts, List.map_map]
    exact congrArg (fun f => CodeAttribute.stackMap (frames.map f))
      (funext (Frame.mapTexts_mapTexts n m))
  | localVariables entries =>
    simp only [CodeAttribute.mapTexts, List.map_map]
    rfl
  | localVariableTypes entries =>
    simp only [CodeAttribute.mapTexts, List.map_map]
    rfl
  | typeAnnotations visibility entries =>
    simp only [CodeAttribute.mapTexts, List.map_map]
    exact congrArg (fun f => CodeAttribute.typeAnnotations visibility (entries.map f))
      (funext fun item => item.mapTexts_mapTexts n m)
  | _ => rfl

theorem Code.mapTexts_mapTexts (code : Code) :
    (code.mapTexts m).mapTexts n = code.mapTexts (n.after m) := by
  have instructions : Placed.mapTexts n ∘ Placed.mapTexts m = Placed.mapTexts (n.after m) := by
    funext placed
    simp only [Function.comp_apply, Placed.mapTexts, Instruction.mapTexts_mapTexts]
  have handlers : Handler.mapTexts n ∘ Handler.mapTexts m = Handler.mapTexts (n.after m) := by
    funext handler
    simp only [Function.comp_apply, Handler.mapTexts, Option.map_map, TextMap.after]
  have attributes : CodeAttribute.mapTexts n ∘ CodeAttribute.mapTexts m =
      CodeAttribute.mapTexts (n.after m) := funext (CodeAttribute.mapTexts_mapTexts n m)
  simp only [Code.mapTexts, List.map_map, instructions, handlers, attributes]

theorem InnerClass.mapTexts_mapTexts (entry : InnerClass) :
    (entry.mapTexts m).mapTexts n = entry.mapTexts (n.after m) := by
  simp only [InnerClass.mapTexts, Option.map_map, TextMap.after, Function.comp_apply]

mutual

theorem Attribute.mapTexts_mapTexts (kind : Signature.Kind) : ∀ item : Attribute,
    (item.mapTexts m kind).mapTexts n kind = item.mapTexts (n.after m) kind
  | .signature _ | .nestHost _ | .bootstrapMethods | .unknown _ _ => rfl
  | .constantValue constant => by
    have inside := Constant.mapTexts_mapTexts (.all n.name) (.all m.name) constant
    cases constant with
    | string text => rfl
    | _ => exact congrArg _ inside
  | .exceptions names | .nestMembers names | .permittedSubclasses names => by
    simp only [Attribute.mapTexts, List.map_map, TextMap.after]
  | .annotations visibility entries => by
    simp only [Attribute.mapTexts, List.map_map]
    exact congrArg (fun f => Attribute.annotations visibility (entries.map f))
      (funext fun item => item.mapTexts_mapTexts n m)
  | .parameterAnnotations visibility parameters => by
    simp only [Attribute.mapTexts, List.map_map]
    exact congrArg (fun f => Attribute.parameterAnnotations visibility (parameters.map f))
      (funext fun entries => by
        simp only [Function.comp_apply, List.map_map]
        exact congrArg (fun f => entries.map f) (funext fun item => item.mapTexts_mapTexts n m))
  | .typeAnnotations visibility entries => by
    simp only [Attribute.mapTexts, List.map_map]
    exact congrArg (fun f => Attribute.typeAnnotations visibility (entries.map f))
      (funext fun item => item.mapTexts_mapTexts n m)
  | .annotationDefault value => congrArg _ (ElementValue.mapTexts_mapTexts n m value)
  | .record components =>
    congrArg _ (Attribute.mapTextsComponents_mapTextsComponents components)
  | .innerClasses classes => by
    simp only [Attribute.mapTexts, List.map_map]
    exact congrArg (fun f => Attribute.innerClasses (classes.map f))
      (funext (InnerClass.mapTexts_mapTexts n m))
  | .enclosingMethod owner none => rfl
  | .enclosingMethod owner (some (name, descriptor)) => rfl
  | .code body => congrArg _ (Code.mapTexts_mapTexts n m body)

theorem Attribute.mapTextsComponents_mapTextsComponents :
    ∀ components : List (RecordComponent Attribute),
      Attribute.mapTextsComponents n (Attribute.mapTextsComponents m components) =
        Attribute.mapTextsComponents (n.after m) components
  | [] => rfl
  | ⟨name, descriptor, attributes⟩ :: rest => by
    simp only [Attribute.mapTextsComponents, Attribute.mapTextsList_mapTextsList .field attributes,
      Attribute.mapTextsComponents_mapTextsComponents rest]
    rfl

theorem Attribute.mapTextsList_mapTextsList (kind : Signature.Kind) :
    ∀ attributes : List Attribute,
      Attribute.mapTextsList n kind (Attribute.mapTextsList m kind attributes) =
        Attribute.mapTextsList (n.after m) kind attributes
  | [] => rfl
  | first :: rest => by
    simp only [Attribute.mapTextsList, Attribute.mapTexts_mapTexts kind first,
      Attribute.mapTextsList_mapTextsList kind rest]

end

theorem Member.mapTexts_mapTexts (kind : Signature.Kind) (member : Member) :
    (member.mapTexts m kind).mapTexts n kind = member.mapTexts (n.after m) kind := by
  simp only [Member.mapTexts, Attribute.mapTextsList_mapTextsList]
  rfl

theorem ClassModel.mapTexts_mapTexts (model : ClassModel) :
    (model.mapTexts m).mapTexts n = model.mapTexts (n.after m) := by
  have members (kind : Signature.Kind) : Member.mapTexts n kind ∘ Member.mapTexts m kind =
      Member.mapTexts (n.after m) kind := funext (Member.mapTexts_mapTexts n m kind)
  simp only [ClassModel.mapTexts, ClassHeader.mapTexts, List.map_map, Option.map_map, members,
    Attribute.mapTextsList_mapTextsList]
  rfl

end Twice

/-! What becomes of a site. -/

def Signature.HasTree : Signature.Kind → String → Prop
  | .type, text => ∃ signature : ClassSignature, signature.WellFormed ∧ text = signature.render
  | .method, text => ∃ signature : MethodSignature, signature.WellFormed ∧ text = signature.render
  | .field, text => ∃ type : TypeSignature, type.WellFormed ∧ text = type.render

/-- What becomes of a signature: its tree with every class name renamed or, if it has none, the text
as a whole. -/
inductive Signature.Renamed (table : Renaming) : Signature.Kind → String → String → Prop
  | type {signature : ClassSignature} (proper : signature.WellFormed) :
      Renamed table .type signature.render (signature.mapNames table.binary).render
  | method {signature : MethodSignature} (proper : signature.WellFormed) :
      Renamed table .method signature.render (signature.mapNames table.binary).render
  | field {type : TypeSignature} (proper : type.WellFormed) :
      Renamed table .field type.render (type.mapNames table.binary).render
  | plain {kind : Signature.Kind} {text : String} (other : ¬ Signature.HasTree kind text) :
      Renamed table kind text (table.binary text)

inductive Site.Renamed (table : Renaming) : Site → Site → Prop
  | binary (text : String) : Renamed table (.binary text) (.binary (table.binary text))
  | dotted (text : String) : Renamed table (.dotted text) (.dotted (table.dotted text))
  | signature {kind : Signature.Kind} {text result : String}
      (renamed : Signature.Renamed table kind text result) :
      Renamed table (.signature kind text) (.signature kind result)

namespace Renaming

variable {table : Renaming} {text : String}

def Free (table : Renaming) (text : String) : Prop :=
  ∀ pair ∈ table.pairs, ¬ pair.source.toList <:+: text.toList

theorem binary?_eq_none_iff : table.binary? text = none ↔ table.Free text := by
  rw [binary?, Option.map_eq_none_iff, substitute?_eq_none_iff, List.forall_mem_map]
  rfl

theorem Free.part {part : String} (free : table.Free text) (inside : part.toList <:+: text.toList) :
    table.Free part := fun pair member occurs => free pair member (occurs.trans inside)

theorem binary_eq_self (unchanged : table.binary? text = none) : table.binary text = text := by
  rw [binary, unchanged, Option.getD_none]

theorem binary_of_free (free : table.Free text) : table.binary text = text :=
  binary_eq_self (binary?_eq_none_iff.2 free)

theorem leaves_binary (unchanged : table.binary? text = none) :
    TypeSignature.Leaves table.binary text.toList := by
  intro name inside
  apply binary_eq_self
  rw [binary?_eq_none_iff] at unchanged ⊢
  exact unchanged.part inside

theorem renamed_of_mapped? {kind : Signature.Kind} {printed : String}
    (done : Signature.mapped? table.binary text kind = some printed) :
    Signature.Renamed table kind text printed := by
  cases kind with
  | type =>
    obtain ⟨signature, parsed, rfl⟩ := Option.map_eq_some_iff.1 done
    obtain ⟨chars, proper⟩ := Signature.class?_eq_some_iff.1 parsed
    rw [← String.ofList_toList (s := text), chars, ClassSignature.mapNamesM_id]
    exact .type proper
  | method =>
    obtain ⟨signature, parsed, rfl⟩ := Option.map_eq_some_iff.1 done
    obtain ⟨chars, proper⟩ := Signature.method?_eq_some_iff.1 parsed
    rw [← String.ofList_toList (s := text), chars, MethodSignature.mapNamesM_id]
    exact .method proper
  | field =>
    obtain ⟨type, parsed, rfl⟩ := Option.map_eq_some_iff.1 done
    obtain ⟨chars, proper⟩ := Signature.field?_eq_some_iff.1 parsed
    rw [← String.ofList_toList (s := text), chars, TypeSignature.mapNamesM_id]
    exact .field proper

theorem not_hasTree_of_mapped? {kind : Signature.Kind}
    (unparsed : Signature.mapped? table.binary text kind = none) : ¬ Signature.HasTree kind text := by
  cases kind with
  | type =>
    rintro ⟨signature, proper, rfl⟩
    rw [Signature.mapped?_class proper] at unparsed
    cases unparsed
  | method =>
    rintro ⟨signature, proper, rfl⟩
    rw [Signature.mapped?_method proper] at unparsed
    cases unparsed
  | field =>
    rintro ⟨type, proper, rfl⟩
    rw [Signature.mapped?_field proper] at unparsed
    cases unparsed

theorem signature_eq (kind : Signature.Kind) (text : String) :
    table.signature kind text = (Signature.mapped? table.binary text kind).getD (table.binary text) := by
  cases found : table.binary? text with
  | none =>
    simp only [signature, site?, found, Option.getD_none]
    cases done : Signature.mapped? table.binary text kind with
    | none => exact (binary_eq_self found).symm
    | some printed => exact (Signature.mapped?_of_leaves (leaves_binary found) done).symm
  | some plain =>
    have whole : table.binary text = plain := by rw [binary, found, Option.getD_some]
    cases done : Signature.mapped? table.binary text kind with
    | none =>
      simp only [signature, site?, found, done, Option.getD_some, Option.getD_none]
      exact whole.symm
    | some printed =>
      simp only [signature, site?, found, done, Option.getD_some]
      split
      · next same => exact same.symm
      · rfl

theorem renamed_signature (kind : Signature.Kind) (text : String) :
    Signature.Renamed table kind text (table.signature kind text) := by
  rw [signature_eq]
  cases done : Signature.mapped? table.binary text kind with
  | none => exact .plain (not_hasTree_of_mapped? done)
  | some printed => exact renamed_of_mapped? done

end Renaming

theorem Site.renamed_mapTexts (table : Renaming) (site : Site) :
    Site.Renamed table site (site.mapTexts (.ofTable table)) := by
  cases site with
  | binary text => exact .binary text
  | dotted text => exact .dotted text
  | signature kind text => exact .signature (table.renamed_signature kind text)

def ClassModel.blank (model : ClassModel) : ClassModel :=
  model.mapTexts ⟨fun _ => "", fun _ => "", id, fun _ _ => ""⟩

/-- Renaming takes every site to what becomes of it and changes nothing else. A relocated class is the
renamed one, less what comes second in a collision. -/
theorem ClassModel.sites_renamed (table : Renaming) (model : ClassModel) :
    List.Forall₂ (Site.Renamed table) model.sites (model.rename table).sites ∧
      (model.rename table).blank = model.blank ∧
        model.relocate table = (model.rename table).resolve ∧
          (model.rename table).Leaves (model.relocate table) := by
  refine ⟨?_, ?_, ClassModel.settle_eq _, ClassModel.settle_leaves _⟩
  · rw [ClassModel.rename_eq, ClassModel.sites_mapTexts, List.forall₂_map_right_iff, List.forall₂_same]
    exact fun site _ => site.renamed_mapTexts table
  · rw [ClassModel.rename_eq, ClassModel.blank, ClassModel.mapTexts_mapTexts]
    rfl

end ClassRenaming
