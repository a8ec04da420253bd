import ClassRenaming.Proofs.RenamedSites
import ClassRenaming.Proofs.SpelledSignatures

/-!
Signatures under a renaming. A signature is renamed in its tree, name by name, and a text that is none as
a text. Where the pairs of the table fit signatures and no source occurs in the name of a type variable
or type parameter, both ways are one.
-/

namespace ClassRenaming

/-! The names of type variables and type parameters in a tree. -/

section Variables

variable (good : String → Prop)

mutual

def TypeSignature.AllVariables : TypeSignature → Prop
  | .base _ => True
  | .array component => component.AllVariables
  | .variable name => good name
  | .class segments => TypeSignature.AllInSegments segments

def TypeSignature.AllInSegments : List (Segment TypeSignature) → Prop
  | [] => True
  | ⟨_, arguments⟩ :: rest =>
    TypeSignature.AllInArguments arguments ∧ TypeSignature.AllInSegments rest

def TypeSignature.AllInArguments : List (TypeArgument TypeSignature) → Prop
  | [] => True
  | first :: rest => TypeSignature.AllInArgument first ∧ TypeSignature.AllInArguments rest

def TypeSignature.AllInArgument : TypeArgument TypeSignature → Prop
  | .any => True
  | .exact bound | .extends bound | .super bound => bound.AllVariables

end

structure TypeParameter.AllVariables (parameter : TypeParameter) : Prop where
  name : good parameter.name
  classBound : ∀ bound ∈ parameter.classBound, bound.AllVariables good
  interfaceBounds : ∀ bound ∈ parameter.interfaceBounds, bound.AllVariables good

structure ClassSignature.AllVariables (signature : ClassSignature) : Prop where
  typeParameters : ∀ parameter ∈ signature.typeParameters, parameter.AllVariables good
  superclass : TypeSignature.AllInSegments good signature.superclass
  interfaces : ∀ type ∈ signature.interfaces, TypeSignature.AllInSegments good type

structure MethodSignature.AllVariables (signature : MethodSignature) : Prop where
  typeParameters : ∀ parameter ∈ signature.typeParameters, parameter.AllVariables good
  parameters : ∀ type ∈ signature.parameters, type.AllVariables good
  result : ∀ type ∈ signature.result, type.AllVariables good
  throws : ∀ type ∈ signature.throws, type.AllVariables good

end Variables

/-! A map of words that keeps these names maps the names of classes alone. -/

section Words

variable {names labels : String → String} {good : String → Prop}

mutual

theorem TypeSignature.mapWords_eq_mapNames (keeps : ∀ name, good name → labels name = name) :
    ∀ type : TypeSignature, type.AllVariables good → type.mapWords names labels = type.mapNames names
  | .base _, _ => rfl
  | .array component, all =>
    congrArg TypeSignature.array (TypeSignature.mapWords_eq_mapNames keeps component all)
  | .variable name, all => congrArg TypeSignature.variable (keeps name all)
  | .class segments, all =>
    congrArg TypeSignature.class (TypeSignature.mapSegments_eq_mapNames keeps segments all)

theorem TypeSignature.mapSegments_eq_mapNames (keeps : ∀ name, good name → labels name = name) :
    ∀ segments : List (Segment TypeSignature), TypeSignature.AllInSegments good segments →
      TypeSignature.mapSegments names labels segments = TypeSignature.mapSegments names id segments
  | [], _ => rfl
  | ⟨name, arguments⟩ :: rest, ⟨here, there⟩ => by
    rw [TypeSignature.mapSegments, TypeSignature.mapArguments_eq_mapNames keeps arguments here,
      TypeSignature.mapSegments_eq_mapNames keeps rest there, TypeSignature.mapSegments]

theorem TypeSignature.mapArguments_eq_mapNames (keeps : ∀ name, good name → labels name = name) :
    ∀ arguments : List (TypeArgument TypeSignature), TypeSignature.AllInArguments good arguments →
      TypeSignature.mapArguments names labels arguments =
        TypeSignature.mapArguments names id arguments
  | [], _ => rfl
  | first :: rest, ⟨here, there⟩ => by
    rw [TypeSignature.mapArguments, TypeSignature.mapArgument_eq_mapNames keeps first here,
      TypeSignature.mapArguments_eq_mapNames keeps rest there, TypeSignature.mapArguments]

theorem TypeSignature.mapArgument_eq_mapNames (keeps : ∀ name, good name → labels name = name) :
    ∀ argument : TypeArgument TypeSignature, TypeSignature.AllInArgument good argument →
      TypeSignature.mapArgument names labels argument = TypeSignature.mapArgument names id argument
  | .any, _ => rfl
  | .exact bound, all =>
    congrArg TypeArgument.exact (TypeSignature.mapWords_eq_mapNames keeps bound all)
  | .extends bound, all =>
    congrArg TypeArgument.extends (TypeSignature.mapWords_eq_mapNames keeps bound all)
  | .super bound, all =>
    congrArg TypeArgument.super (TypeSignature.mapWords_eq_mapNames keeps bound all)

end

variable (keeps : ∀ name, good name → labels name = name)

include keeps

theorem TypeSignature.map_mapWords_eq_mapNames {types : List TypeSignature}
    (all : ∀ type ∈ types, type.AllVariables good) :
    types.map (mapWords names labels) = types.map (mapNames names) :=
  List.map_congr_left fun type member => mapWords_eq_mapNames keeps type (all type member)

theorem TypeSignature.option_mapWords_eq_mapNames {type : Option TypeSignature}
    (all : ∀ found ∈ type, found.AllVariables good) :
    type.map (mapWords names labels) = type.map (mapNames names) :=
  Option.map_congr fun found member => mapWords_eq_mapNames keeps found (all found member)

theorem TypeParameter.map_mapWords_eq_mapNames {parameters : List TypeParameter}
    (all : ∀ parameter ∈ parameters, parameter.AllVariables good) :
    parameters.map (mapWords names labels) = parameters.map (mapWords names id) := by
  apply List.map_congr_left
  intro parameter member
  have here := all parameter member
  simp only [mapWords, keeps _ here.name, id,
    TypeSignature.option_mapWords_eq_mapNames keeps here.classBound,
    TypeSignature.map_mapWords_eq_mapNames keeps here.interfaceBounds]

theorem ClassSignature.mapWords_eq_mapNames {signature : ClassSignature}
    (all : signature.AllVariables good) :
    signature.mapWords names labels = signature.mapNames names := by
  have interfaces : signature.interfaces.map (TypeSignature.mapSegments names labels) =
      signature.interfaces.map (TypeSignature.mapSegments names id) :=
    List.map_congr_left fun type member =>
      TypeSignature.mapSegments_eq_mapNames keeps type (all.interfaces type member)
  rw [mapWords, TypeParameter.map_mapWords_eq_mapNames keeps all.typeParameters, interfaces,
    TypeSignature.mapSegments_eq_mapNames keeps signature.superclass all.superclass]
  rfl

theorem MethodSignature.mapWords_eq_mapNames {signature : MethodSignature}
    (all : signature.AllVariables good) :
    signature.mapWords names labels = signature.mapNames names := by
  rw [mapWords, TypeParameter.map_mapWords_eq_mapNames keeps all.typeParameters,
    TypeSignature.map_mapWords_eq_mapNames keeps all.parameters,
    TypeSignature.option_mapWords_eq_mapNames keeps all.result,
    TypeSignature.map_mapWords_eq_mapNames keeps all.throws]
  rfl

end Words

/-! Renaming trees and renaming texts. -/

namespace Renaming

open Signature (marks ends)

variable {table : Renaming}

theorem FitsMarks.keepsShape (fits : table.FitsMarks marks ends) :
    TypeSignature.KeepsShape table.binary := by
  intro name proper
  apply fits.isIdentifier _ proper
  intro c stops
  simp only [endsSegment, Bool.or_eq_true, beq_iff_eq] at stops
  rcases stops with (rfl | rfl) | rfl <;> decide

/-- If no source of a table is empty or starts like a part of a signature, no target is empty and no
source or target holds a character that ends a name in signatures, then renaming the text of a
signature, in which no source occurs in the name of a type variable or type parameter, is renaming the
classes in its tree: the new tree is printed as the new text and read from it, and a site of this
signature becomes this text. -/
theorem binary_signature (fits : table.FitsMarks marks ends) (text : String) :
    (∀ signature, Signature.ofClass text = .ok signature → signature.AllVariables table.Free →
      (signature.mapNamesM (m := Id) table.binary).render = table.binary text ∧
        Signature.ofClass (table.binary text) = .ok (signature.mapNamesM (m := Id) table.binary) ∧
        table.signature .type text = table.binary text) ∧
    (∀ signature, Signature.ofMethod text = .ok signature → signature.AllVariables table.Free →
      (signature.mapNamesM (m := Id) table.binary).render = table.binary text ∧
        Signature.ofMethod (table.binary text) = .ok (signature.mapNamesM (m := Id) table.binary) ∧
        table.signature .method text = table.binary text) ∧
    ∀ type, Signature.ofField text = .ok type → type.AllVariables table.Free →
      (type.mapNamesM (m := Id) table.binary).render = table.binary text ∧
        Signature.ofField (table.binary text) = .ok (type.mapNamesM (m := Id) table.binary) ∧
        table.signature .field text = table.binary text := by
  have keeps : ∀ name, table.Free name → table.binary name = name := fun _ => binary_of_free
  refine ⟨?_, ?_, ?_⟩
  · intro signature parsed free
    obtain ⟨proper, rfl⟩ := Signature.ofClass_eq_ok_iff.1 parsed
    have renamed := ClassSignature.wellFormed_mapWords fits.keepsShape .id proper
    have spelled : table.binary signature.render = (signature.mapNames table.binary).render := by
      rw [signature.render_spelled fits.spellsWords, ClassSignature.mapWords_eq_mapNames keeps free]
    rw [signature_eq, Signature.mapped?_class proper, ClassSignature.mapNamesM_id, spelled]
    exact ⟨rfl, Signature.ofClass_eq_ok_iff.2 ⟨renamed, rfl⟩, rfl⟩
  · intro signature parsed free
    obtain ⟨proper, rfl⟩ := Signature.ofMethod_eq_ok_iff.1 parsed
    have renamed := MethodSignature.wellFormed_mapWords fits.keepsShape .id proper
    have spelled : table.binary signature.render = (signature.mapNames table.binary).render := by
      rw [signature.render_spelled fits.spellsWords, MethodSignature.mapWords_eq_mapNames keeps free]
    rw [signature_eq, Signature.mapped?_method proper, MethodSignature.mapNamesM_id, spelled]
    exact ⟨rfl, Signature.ofMethod_eq_ok_iff.2 ⟨renamed, rfl⟩, rfl⟩
  · intro type parsed free
    obtain ⟨proper, rfl⟩ := Signature.ofField_eq_ok_iff.1 parsed
    have renamed := TypeSignature.wellFormed_mapWords fits.keepsShape .id type proper
    have spelled : table.binary type.render = (type.mapNames table.binary).render := by
      rw [type.render_spelled fits.spellsWords, TypeSignature.mapWords_eq_mapNames keeps type free]
    rw [signature_eq, Signature.mapped?_field proper, TypeSignature.mapNamesM_id, spelled]
    exact ⟨rfl, Signature.ofField_eq_ok_iff.2 ⟨renamed, rfl⟩, rfl⟩

def javaxTable : Renaming := ⟨[⟨"javax", "jakarta"⟩]⟩

/-- A method with a bounded type parameter, a nested class type with arguments and a thrown type. -/
def beanSignature : MethodSignature where
  typeParameters := [⟨"T", some (.class [⟨"javax/Bean", []⟩]), []⟩]
  parameters := [.class [⟨"Map", [.exact (.variable "T"),
    .extends (.array (.class [⟨"javax/Bean", []⟩]))]⟩, ⟨"Entry", [.any]⟩]]
  result := none
  throws := [.variable "T"]

theorem beanSignature_renamed :
    javaxTable.FitsMarks marks ends ∧ beanSignature.AllVariables javaxTable.Free ∧
      Signature.ofMethod "<T:Ljavax/Bean;>(LMap<TT;+[Ljavax/Bean;>.Entry<*>;)V^TT;" =
        .ok beanSignature ∧
      (beanSignature.mapNamesM (m := Id) javaxTable.binary).render =
        "<T:Ljakarta/Bean;>(LMap<TT;+[Ljakarta/Bean;>.Entry<*>;)V^TT;" := by
  have fits : javaxTable.FitsMarks marks ends :=
    .of_isLower (by decide) (by decide) (by decide) (by decide)
  have free : javaxTable.Free "T" := binary?_eq_none_iff.1 (by decide)
  have all : beanSignature.AllVariables javaxTable.Free := by
    constructor
    case typeParameters =>
      intro parameter member
      rw [List.mem_singleton.1 member]
      refine ⟨free, ?_, nofun⟩
      rintro bound ⟨⟩
      simp [TypeSignature.AllVariables, TypeSignature.AllInSegments, TypeSignature.AllInArguments]
    case parameters =>
      simp [beanSignature, TypeSignature.AllVariables, TypeSignature.AllInSegments,
        TypeSignature.AllInArguments, TypeSignature.AllInArgument, free]
    case result => exact nofun
    case throws => simp [beanSignature, TypeSignature.AllVariables, free]
  have parsed : Signature.ofMethod "<T:Ljavax/Bean;>(LMap<TT;+[Ljavax/Bean;>.Entry<*>;)V^TT;" =
      .ok beanSignature := by
    cbv
  obtain ⟨printed, -, -⟩ := (binary_signature fits _).2.1 beanSignature parsed all
  refine ⟨fits, all, parsed, printed.trans ?_⟩
  decide

end Renaming

end ClassRenaming
