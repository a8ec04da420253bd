import ClassRenaming.Proofs.SignatureGrammar
import ClassRenaming.Sites.Listing
import Mathlib.Data.List.Infix

/-!
Mapping the words of a signature: the names of classes in it, and the names of type variables. Maps
made one after another are one map, maps that take names to names keep a tree well formed, and a map
that leaves alone every name in the text leaves the text alone.
-/

namespace ClassRenaming

/-! The words of a tree, mapped one by one. -/

section Words

variable (names labels : String → String)

mutual

def TypeSignature.mapWords : TypeSignature → TypeSignature
  | .base type => .base type
  | .array component => .array component.mapWords
  | .variable name => .variable (labels name)
  | .class segments => .class (TypeSignature.mapSegments segments)

def TypeSignature.mapSegments : List (Segment TypeSignature) → List (Segment TypeSignature)
  | [] => []
  | ⟨name, arguments⟩ :: rest =>
    ⟨names name, TypeSignature.mapArguments arguments⟩ :: TypeSignature.mapSegments rest

def TypeSignature.mapArguments :
    List (TypeArgument TypeSignature) → List (TypeArgument TypeSignature)
  | [] => []
  | first :: rest => TypeSignature.mapArgument first :: TypeSignature.mapArguments rest

def TypeSignature.mapArgument : TypeArgument TypeSignature → TypeArgument TypeSignature
  | .any => .any
  | .exact bound => .exact bound.mapWords
  | .extends bound => .extends bound.mapWords
  | .super bound => .super bound.mapWords

end

def TypeParameter.mapWords (parameter : TypeParameter) : TypeParameter where
  name := labels parameter.name
  classBound := parameter.classBound.map (TypeSignature.mapWords names labels)
  interfaceBounds := parameter.interfaceBounds.map (TypeSignature.mapWords names labels)

def ClassSignature.mapWords (signature : ClassSignature) : ClassSignature where
  typeParameters := signature.typeParameters.map (TypeParameter.mapWords names labels)
  superclass := TypeSignature.mapSegments names labels signature.superclass
  interfaces := signature.interfaces.map (TypeSignature.mapSegments names labels)

def MethodSignature.mapWords (signature : MethodSignature) : MethodSignature where
  typeParameters := signature.typeParameters.map (TypeParameter.mapWords names labels)
  parameters := signature.parameters.map (TypeSignature.mapWords names labels)
  result := signature.result.map (TypeSignature.mapWords names labels)
  throws := signature.throws.map (TypeSignature.mapWords names labels)

end Words

/-! Class names alone, as they are visited. -/

section Names

variable (f : String → String)

abbrev TypeSignature.mapNames (type : TypeSignature) : TypeSignature := type.mapWords f id

abbrev ClassSignature.mapNames (signature : ClassSignature) : ClassSignature :=
  signature.mapWords f id

abbrev MethodSignature.mapNames (signature : MethodSignature) : MethodSignature :=
  signature.mapWords f id

mutual

theorem TypeSignature.mapNamesM_id : ∀ type : TypeSignature,
    type.mapNamesM (m := Id) f = type.mapNames f
  | .base _ => rfl
  | .array component => congrArg TypeSignature.array (TypeSignature.mapNamesM_id component)
  | .variable _ => rfl
  | .class segments => congrArg TypeSignature.class (TypeSignature.segmentsMapM_id segments)

theorem TypeSignature.segmentsMapM_id : ∀ segments : List (Segment TypeSignature),
    TypeSignature.segmentsMapM (m := Id) f segments = TypeSignature.mapSegments f id segments
  | [] => rfl
  | ⟨name, arguments⟩ :: rest => by
    change Segment.mk (f name) (TypeSignature.argumentsMapM (m := Id) f arguments) ::
      TypeSignature.segmentsMapM (m := Id) f rest = _
    rw [TypeSignature.argumentsMapM_id arguments, TypeSignature.segmentsMapM_id rest]
    rfl

theorem TypeSignature.argumentsMapM_id : ∀ arguments : List (TypeArgument TypeSignature),
    TypeSignature.argumentsMapM (m := Id) f arguments = TypeSignature.mapArguments f id arguments
  | [] => rfl
  | first :: rest => by
    change TypeSignature.argumentMapM (m := Id) f first ::
      TypeSignature.argumentsMapM (m := Id) f rest = _
    rw [TypeSignature.argumentMapM_id first, TypeSignature.argumentsMapM_id rest]
    rfl

theorem TypeSignature.argumentMapM_id : ∀ argument : TypeArgument TypeSignature,
    TypeSignature.argumentMapM (m := Id) f argument = TypeSignature.mapArgument f id argument
  | .any => rfl
  | .exact bound => congrArg TypeArgument.exact (TypeSignature.mapNamesM_id bound)
  | .extends bound => congrArg TypeArgument.extends (TypeSignature.mapNamesM_id bound)
  | .super bound => congrArg TypeArgument.super (TypeSignature.mapNamesM_id bound)

end

theorem mapM_id {α β : Type} {g : α → Id β} {h : α → β} (same : ∀ item, g item = h item)
    (items : List α) : (items.mapM (m := Id) g : Id (List β)) = items.map h := by
  rw [funext same]
  exact List.idRun_mapM

theorem optionMapM_id {α β : Type} {g : α → Id β} {h : α → β} (same : ∀ item, g item = h item)
    (item : Option α) : (item.mapM (m := Id) g : Id (Option β)) = item.map h := by
  rw [funext same]
  cases item <;> rfl

theorem TypeParameter.mapNamesM_id (parameter : TypeParameter) :
    parameter.mapNamesM (m := Id) f = parameter.mapWords f id := by
  change { parameter with
    classBound := parameter.classBound.mapM (m := Id) (TypeSignature.mapNamesM (m := Id) f)
    interfaceBounds :=
      parameter.interfaceBounds.mapM (m := Id) (TypeSignature.mapNamesM (m := Id) f) } = _
  rw [optionMapM_id (TypeSignature.mapNamesM_id f), mapM_id (TypeSignature.mapNamesM_id f)]
  rfl

theorem ClassSignature.mapNamesM_id (signature : ClassSignature) :
    signature.mapNamesM (m := Id) f = signature.mapNames f := by
  change ClassSignature.mk
    (signature.typeParameters.mapM (m := Id) (TypeParameter.mapNamesM (m := Id) f))
    (TypeSignature.segmentsMapM (m := Id) f signature.superclass)
    (signature.interfaces.mapM (m := Id) (TypeSignature.segmentsMapM (m := Id) f)) = _
  rw [mapM_id (TypeParameter.mapNamesM_id f), TypeSignature.segmentsMapM_id,
    mapM_id (TypeSignature.segmentsMapM_id f)]
  rfl

theorem MethodSignature.mapNamesM_id (signature : MethodSignature) :
    signature.mapNamesM (m := Id) f = signature.mapNames f := by
  change MethodSignature.mk
    (signature.typeParameters.mapM (m := Id) (TypeParameter.mapNamesM (m := Id) f))
    (signature.parameters.mapM (m := Id) (TypeSignature.mapNamesM (m := Id) f))
    (signature.result.mapM (m := Id) (TypeSignature.mapNamesM (m := Id) f))
    (signature.throws.mapM (m := Id) (TypeSignature.mapNamesM (m := Id) f)) = _
  rw [mapM_id (TypeParameter.mapNamesM_id f), mapM_id (TypeSignature.mapNamesM_id f),
    optionMapM_id (TypeSignature.mapNamesM_id f), mapM_id (TypeSignature.mapNamesM_id f)]
  rfl

/-! The text of a tree is mapped as the tree is. -/

namespace Signature

variable {f : String → String}

theorem mapped?_class {signature : ClassSignature} (proper : signature.WellFormed) :
    mapped? f signature.render .type = some (signature.mapNames f).render := by
  have parsed := class?_eq_some_iff.2 ⟨rfl, proper⟩
  rw [mapped?, ClassSignature.render, String.toList_ofList, parsed, Option.map_some,
    ClassSignature.mapNamesM_id]

theorem mapped?_method {signature : MethodSignature} (proper : signature.WellFormed) :
    mapped? f signature.render .method = some (signature.mapNames f).render := by
  have parsed := method?_eq_some_iff.2 ⟨rfl, proper⟩
  rw [mapped?, MethodSignature.render, String.toList_ofList, parsed, Option.map_some,
    MethodSignature.mapNamesM_id]

theorem mapped?_field {type : TypeSignature} (proper : type.WellFormed) :
    mapped? f type.render .field = some (type.mapNames f).render := by
  have parsed := field?_eq_some_iff.2 ⟨rfl, proper⟩
  rw [mapped?, TypeSignature.render, String.toList_ofList, parsed, Option.map_some,
    TypeSignature.mapNamesM_id]

end Signature

end Names

/-! Maps made one after the other. -/

section Twice

variable (names labels others more : String → String)

mutual

theorem TypeSignature.mapWords_mapWords : ∀ type : TypeSignature,
    (type.mapWords names labels).mapWords others more =
      type.mapWords (others ∘ names) (more ∘ labels)
  | .base _ => rfl
  | .array component =>
    congrArg TypeSignature.array (TypeSignature.mapWords_mapWords component)
  | .variable _ => rfl
  | .class segments =>
    congrArg TypeSignature.class (TypeSignature.mapSegments_mapSegments segments)

theorem TypeSignature.mapSegments_mapSegments : ∀ segments : List (Segment TypeSignature),
    TypeSignature.mapSegments others more (TypeSignature.mapSegments names labels segments) =
      TypeSignature.mapSegments (others ∘ names) (more ∘ labels) segments
  | [] => rfl
  | ⟨name, arguments⟩ :: rest => by
    simp only [TypeSignature.mapSegments, TypeSignature.mapArguments_mapArguments arguments,
      TypeSignature.mapSegments_mapSegments rest]
    rfl

theorem TypeSignature.mapArguments_mapArguments : ∀ arguments : List (TypeArgument TypeSignature),
    TypeSignature.mapArguments others more (TypeSignature.mapArguments names labels arguments) =
      TypeSignature.mapArguments (others ∘ names) (more ∘ labels) arguments
  | [] => rfl
  | first :: rest => by
    simp only [TypeSignature.mapArguments, TypeSignature.mapArgument_mapArgument first,
      TypeSignature.mapArguments_mapArguments rest]

theorem TypeSignature.mapArgument_mapArgument : ∀ argument : TypeArgument TypeSignature,
    TypeSignature.mapArgument others more (TypeSignature.mapArgument names labels argument) =
      TypeSignature.mapArgument (others ∘ names) (more ∘ labels) argument
  | .any => rfl
  | .exact bound => congrArg TypeArgument.exact (TypeSignature.mapWords_mapWords bound)
  | .extends bound => congrArg TypeArgument.extends (TypeSignature.mapWords_mapWords bound)
  | .super bound => congrArg TypeArgument.super (TypeSignature.mapWords_mapWords bound)

end

theorem TypeParameter.mapWords_mapWords (parameter : TypeParameter) :
    (parameter.mapWords names labels).mapWords others more =
      parameter.mapWords (others ∘ names) (more ∘ labels) := by
  have types := funext (TypeSignature.mapWords_mapWords names labels others more)
  simp only [TypeParameter.mapWords, Option.map_map, List.map_map, ← types]
  rfl

theorem ClassSignature.mapWords_mapWords (signature : ClassSignature) :
    (signature.mapWords names labels).mapWords others more =
      signature.mapWords (others ∘ names) (more ∘ labels) := by
  have parameters := funext (TypeParameter.mapWords_mapWords names labels others more)
  have segments := funext (TypeSignature.mapSegments_mapSegments names labels others more)
  simp only [ClassSignature.mapWords, List.map_map, ← parameters, ← segments]
  rfl

theorem MethodSignature.mapWords_mapWords (signature : MethodSignature) :
    (signature.mapWords names labels).mapWords others more =
      signature.mapWords (others ∘ names) (more ∘ labels) := by
  have parameters := funext (TypeParameter.mapWords_mapWords names labels others more)
  have types := funext (TypeSignature.mapWords_mapWords names labels others more)
  simp only [MethodSignature.mapWords, List.map_map, Option.map_map, ← parameters, ← types]
  rfl

end Twice

/-! A map that leaves every name in a text alone. -/

namespace TypeSignature

variable {f : String → String}

def Leaves (f : String → String) (text : List Char) : Prop :=
  ∀ name : String, name.toList <:+: text → f name = name

theorem Leaves.part {text part : List Char} (leaves : Leaves f text) (inside : part <:+: text) :
    Leaves f part := fun name member => leaves name (member.trans inside)

theorem Leaves.map_eq_self {α : Type} {g : α → α} {chars : α → List Char} {items : List α}
    (leaves : Leaves f (items.flatMap chars)) (each : ∀ item, Leaves f (chars item) → g item = item) :
    items.map g = items := by
  have same : ∀ item ∈ items, g item = id item := by
    intro item member
    apply each
    apply leaves.part
    rw [List.flatMap_def]
    exact List.infix_of_mem_flatten (List.mem_map_of_mem member)
  exact (List.map_congr_left same).trans (List.map_id items)

theorem argumentsChars_isInfix (arguments : List (TypeArgument TypeSignature)) :
    argumentsChars arguments <:+: bracketed arguments := by
  cases arguments with
  | nil => exact List.infix_rfl
  | cons first rest => exact ⟨['<'], ['>'], rfl⟩

mutual

theorem mapNames_eq_self : ∀ type : TypeSignature, Leaves f type.chars → type.mapNames f = type
  | .base _, _ => rfl
  | .array component, leaves =>
    congrArg TypeSignature.array
      (mapNames_eq_self component (leaves.part (List.suffix_cons _ _).isInfix))
  | .variable _, _ => rfl
  | .class segments, leaves =>
    congrArg TypeSignature.class
      (mapSegments_eq_self segments (leaves.part ⟨['L'], [';'], rfl⟩))

theorem mapSegments_eq_self : ∀ segments : List (Segment TypeSignature),
    Leaves f (segmentChars segments) → mapSegments f id segments = segments
  | [], _ => rfl
  | [⟨name, arguments⟩], leaves => by
    have named := leaves name (List.prefix_append _ _).isInfix
    have inside : TypeSignature.bracketed arguments <:+: _ := (List.suffix_append name.toList _).isInfix
    have kept := mapArguments_eq_self arguments
      (leaves.part ((argumentsChars_isInfix arguments).trans inside))
    rw [mapSegments, named, kept]
    rfl
  | ⟨name, arguments⟩ :: second :: rest, leaves => by
    have chars : segmentChars (⟨name, arguments⟩ :: second :: rest) =
      name.toList ++ bracketed arguments ++ '.' :: segmentChars (second :: rest) := rfl
    rw [chars] at leaves
    have front := leaves.part (List.prefix_append _ _).isInfix
    have named := front name (List.prefix_append _ _).isInfix
    have inside := front.part (List.suffix_append _ _).isInfix
    have kept := mapArguments_eq_self arguments (inside.part (argumentsChars_isInfix arguments))
    have behind := leaves.part (List.suffix_append _ _).isInfix
    have others := mapSegments_eq_self (second :: rest)
      (behind.part (List.suffix_cons _ _).isInfix)
    rw [mapSegments, named, kept, others]

theorem mapArguments_eq_self : ∀ arguments : List (TypeArgument TypeSignature),
    Leaves f (argumentsChars arguments) → mapArguments f id arguments = arguments
  | [], _ => rfl
  | first :: rest, leaves => by
    have here := mapArgument_eq_self first (leaves.part (List.prefix_append _ _).isInfix)
    have there := mapArguments_eq_self rest (leaves.part (List.suffix_append _ _).isInfix)
    rw [mapArguments, here, there]

theorem mapArgument_eq_self : ∀ argument : TypeArgument TypeSignature,
    Leaves f (argumentChars argument) → mapArgument f id argument = argument
  | .any, _ => rfl
  | .exact bound, leaves => congrArg TypeArgument.exact (mapNames_eq_self bound leaves)
  | .extends bound, leaves =>
    congrArg TypeArgument.extends
      (mapNames_eq_self bound (leaves.part (List.suffix_cons _ _).isInfix))
  | .super bound, leaves =>
    congrArg TypeArgument.super
      (mapNames_eq_self bound (leaves.part (List.suffix_cons _ _).isInfix))

end

end TypeSignature

section Left

open TypeSignature (Leaves mapSegments)

variable {f : String → String}

namespace TypeParameter

theorem mapNames_eq_self {parameter : TypeParameter} (leaves : Leaves f parameter.chars) :
    parameter.mapWords f id = parameter := by
  rw [chars_eq] at leaves
  have bounds := (leaves.part (List.suffix_append _ _).isInfix).part (List.suffix_cons _ _).isInfix
  obtain ⟨name, classBound, interfaceBounds⟩ := parameter
  have first : classBound.map (TypeSignature.mapNames f) = classBound := by
    cases classBound with
    | none => rfl
    | some bound =>
      have inside := bounds.part (List.prefix_append _ _).isInfix
      exact congrArg some (TypeSignature.mapNames_eq_self bound inside)
  have others : interfaceBounds.map (TypeSignature.mapNames f) = interfaceBounds := by
    apply (bounds.part (List.suffix_append _ _).isInfix).map_eq_self
    intro bound inside
    exact TypeSignature.mapNames_eq_self bound (inside.part (List.suffix_cons _ _).isInfix)
  rw [mapWords, first, others]
  rfl

theorem listChars_isInfix (parameters : List TypeParameter) :
    parameters.flatMap chars <:+: listChars parameters := by
  cases parameters with
  | nil => exact List.infix_rfl
  | cons first rest => exact ⟨['<'], ['>'], rfl⟩

end TypeParameter

theorem ClassSignature.mapNames_eq_self {signature : ClassSignature}
    (leaves : Leaves f signature.chars) : signature.mapNames f = signature := by
  obtain ⟨parameters, superclass, interfaces⟩ := signature
  have front := leaves.part (List.prefix_append _ _).isInfix
  have first : parameters.map (TypeParameter.mapWords f id) = parameters := by
    have inside := front.part (List.prefix_append _ _).isInfix
    apply (inside.part (TypeParameter.listChars_isInfix parameters)).map_eq_self
    exact fun parameter => TypeParameter.mapNames_eq_self
  have second : mapSegments f id superclass = superclass := by
    have inside := front.part (List.suffix_append _ _).isInfix
    exact TypeSignature.mapSegments_eq_self superclass (inside.part ⟨['L'], [';'], rfl⟩)
  have third : interfaces.map (mapSegments f id) = interfaces := by
    apply (leaves.part (List.suffix_append _ _).isInfix).map_eq_self
    exact fun type inside =>
      TypeSignature.mapSegments_eq_self type (inside.part ⟨['L'], [';'], rfl⟩)
  rw [mapNames, mapWords, first, second, third]

theorem MethodSignature.mapNames_eq_self {signature : MethodSignature}
    (leaves : Leaves f signature.chars) : signature.mapNames f = signature := by
  rw [chars_eq] at leaves
  obtain ⟨generics, parameters, result, throws⟩ := signature
  have front := leaves.part (List.prefix_append _ _).isInfix
  have behind := (leaves.part (List.suffix_append _ _).isInfix).part (List.suffix_cons _ _).isInfix
  have last := (behind.part (List.suffix_append _ _).isInfix).part (List.suffix_cons _ _).isInfix
  have first : generics.map (TypeParameter.mapWords f id) = generics := by
    apply (front.part (TypeParameter.listChars_isInfix generics)).map_eq_self
    exact fun parameter => TypeParameter.mapNames_eq_self
  have second : parameters.map (TypeSignature.mapNames f) = parameters := by
    apply (behind.part (List.prefix_append _ _).isInfix).map_eq_self
    exact fun type => TypeSignature.mapNames_eq_self type
  have third : result.map (TypeSignature.mapNames f) = result := by
    cases result with
    | none => rfl
    | some type =>
      have inside := last.part (List.prefix_append _ _).isInfix
      exact congrArg some (TypeSignature.mapNames_eq_self type inside)
  have fourth : throws.map (TypeSignature.mapNames f) = throws := by
    apply (last.part (List.suffix_append _ _).isInfix).map_eq_self
    exact fun type inside =>
      TypeSignature.mapNames_eq_self type (inside.part (List.suffix_cons _ _).isInfix)
  rw [mapNames, mapWords, first, second, third, fourth]

theorem Signature.mapped?_of_leaves {kind : Kind} {text printed : String}
    (leaves : Leaves f text.toList) (done : mapped? f text kind = some printed) :
    printed = text := by
  cases kind with
  | type =>
    obtain ⟨signature, parsed, rfl⟩ := Option.map_eq_some_iff.1 done
    obtain ⟨chars, -⟩ := class?_eq_some_iff.1 parsed
    rw [chars] at leaves
    rw [ClassSignature.mapNamesM_id, ClassSignature.mapNames_eq_self leaves, ClassSignature.render,
      ← chars, String.ofList_toList]
  | method =>
    obtain ⟨signature, parsed, rfl⟩ := Option.map_eq_some_iff.1 done
    obtain ⟨chars, -⟩ := method?_eq_some_iff.1 parsed
    rw [chars] at leaves
    rw [MethodSignature.mapNamesM_id, MethodSignature.mapNames_eq_self leaves,
      MethodSignature.render, ← chars, String.ofList_toList]
  | field =>
    obtain ⟨type, parsed, rfl⟩ := Option.map_eq_some_iff.1 done
    obtain ⟨chars, -⟩ := field?_eq_some_iff.1 parsed
    rw [chars] at leaves
    rw [TypeSignature.mapNamesM_id, TypeSignature.mapNames_eq_self type leaves,
      TypeSignature.render, ← chars, String.ofList_toList]

end Left

/-! Maps that take names to names. -/

/-- Whether a map takes names of classes, as they stand in signatures, to such names. -/
def TypeSignature.KeepsShape (f : String → String) : Prop :=
  ∀ name, IsIdentifier endsSegment name → IsIdentifier endsSegment (f name)

structure TypeSignature.KeepsLabels (f : String → String) : Prop where
  inside : ∀ name, IsIdentifier (· == ';') name → IsIdentifier (· == ';') (f name)
  parameter : ∀ name, IsIdentifier (· == ':') name → IsIdentifier (· == ':') (f name)
  start : ∀ name, (f name).toList.head? = some '>' → name.toList.head? = some '>'

theorem TypeSignature.KeepsLabels.id : KeepsLabels id :=
  ⟨fun _ proper => proper, fun _ proper => proper, fun _ start => start⟩

section Shapes

open TypeSignature

variable {names labels : String → String}

namespace TypeSignature

theorem isReference_mapWords {type : TypeSignature} (reference : type.IsReference) :
    (type.mapWords names labels).IsReference := by
  cases type with
  | base _ => exact reference
  | _ => trivial

mutual

theorem wellFormed_mapWords (shape : KeepsShape names) (keeps : KeepsLabels labels) :
    ∀ type : TypeSignature, type.WellFormed → (type.mapWords names labels).WellFormed
  | .base _, _ => trivial
  | .array component, proper => wellFormed_mapWords shape keeps component proper
  | .variable name, proper => keeps.inside name proper
  | .class segments, proper => by
    refine ⟨?_, wellFormed_mapSegments shape keeps segments proper.2⟩
    intro empty
    apply proper.1
    cases segments with
    | nil => rfl
    | cons first rest => cases empty

theorem wellFormed_mapSegments (shape : KeepsShape names) (keeps : KeepsLabels labels) :
    ∀ segments : List (Segment TypeSignature), AllSegmentsWellFormed segments →
      AllSegmentsWellFormed (mapSegments names labels segments)
  | [], _ => trivial
  | ⟨name, arguments⟩ :: rest, proper =>
    ⟨shape name proper.1, wellFormed_mapArguments shape keeps arguments proper.2.1,
      wellFormed_mapSegments shape keeps rest proper.2.2⟩

theorem wellFormed_mapArguments (shape : KeepsShape names) (keeps : KeepsLabels labels) :
    ∀ arguments : List (TypeArgument TypeSignature), AllArgumentsWellFormed arguments →
      AllArgumentsWellFormed (mapArguments names labels arguments)
  | [], _ => trivial
  | first :: rest, proper =>
    ⟨wellFormed_mapArgument shape keeps first proper.1,
      wellFormed_mapArguments shape keeps rest proper.2⟩

theorem wellFormed_mapArgument (shape : KeepsShape names) (keeps : KeepsLabels labels) :
    ∀ argument : TypeArgument TypeSignature, ArgumentWellFormed argument →
      ArgumentWellFormed (mapArgument names labels argument)
  | .any, _ => trivial
  | .exact bound, proper | .extends bound, proper | .super bound, proper =>
    ⟨isReference_mapWords proper.1, wellFormed_mapWords shape keeps bound proper.2⟩

end

variable (shape : KeepsShape names) (keeps : KeepsLabels labels)

include shape keeps

theorem isBound_mapWords {bound : TypeSignature} (proper : bound.IsBound) :
    (bound.mapWords names labels).IsBound :=
  ⟨isReference_mapWords proper.1, wellFormed_mapWords shape keeps bound proper.2⟩

theorem isThrown_mapWords {type : TypeSignature} (proper : type.IsThrown) :
    (type.mapWords names labels).IsThrown := by
  obtain ⟨well, kind⟩ := proper
  refine ⟨wellFormed_mapWords shape keeps type well, ?_⟩
  rcases kind with ⟨name, rfl⟩ | ⟨segments, rfl⟩
  · exact .inl ⟨labels name, rfl⟩
  · exact .inr ⟨mapSegments names labels segments, rfl⟩

end TypeSignature

variable (shape : KeepsShape names) (keeps : KeepsLabels labels)

include shape keeps

theorem TypeParameter.wellFormed_mapWords {parameter : TypeParameter}
    (proper : parameter.WellFormed) : (parameter.mapWords names labels).WellFormed := by
  constructor
  case name => exact keeps.parameter parameter.name proper.name
  case start => exact fun start => proper.start (keeps.start parameter.name start)
  case classBound =>
    intro bound member
    obtain ⟨old, listed, rfl⟩ := Option.map_eq_some_iff.1 member
    exact isBound_mapWords shape keeps (proper.classBound old listed)
  case interfaceBounds =>
    intro bound member
    obtain ⟨old, listed, rfl⟩ := List.mem_map.1 member
    exact isBound_mapWords shape keeps (proper.interfaceBounds old listed)
  case bounded =>
    intro unbounded empty
    exact proper.bounded (Option.map_eq_none_iff.1 unbounded) (List.map_eq_nil_iff.1 empty)

theorem ClassSignature.wellFormed_mapWords {signature : ClassSignature}
    (proper : signature.WellFormed) : (signature.mapWords names labels).WellFormed := by
  constructor
  case typeParameters =>
    intro parameter member
    obtain ⟨old, listed, rfl⟩ := List.mem_map.1 member
    exact TypeParameter.wellFormed_mapWords shape keeps (proper.typeParameters old listed)
  case superclass => exact TypeSignature.wellFormed_mapWords shape keeps (.class _) proper.superclass
  case interfaces =>
    intro type member
    obtain ⟨old, listed, rfl⟩ := List.mem_map.1 member
    exact TypeSignature.wellFormed_mapWords shape keeps (.class _) (proper.interfaces old listed)

theorem MethodSignature.wellFormed_mapWords {signature : MethodSignature}
    (proper : signature.WellFormed) : (signature.mapWords names labels).WellFormed := by
  constructor
  case typeParameters =>
    intro parameter member
    obtain ⟨old, listed, rfl⟩ := List.mem_map.1 member
    exact TypeParameter.wellFormed_mapWords shape keeps (proper.typeParameters old listed)
  case parameters =>
    intro type member
    obtain ⟨old, listed, rfl⟩ := List.mem_map.1 member
    exact TypeSignature.wellFormed_mapWords shape keeps old (proper.parameters old listed)
  case result =>
    intro type member
    obtain ⟨old, listed, rfl⟩ := Option.map_eq_some_iff.1 member
    exact TypeSignature.wellFormed_mapWords shape keeps old (proper.result old listed)
  case throws =>
    intro type member
    obtain ⟨old, listed, rfl⟩ := List.mem_map.1 member
    exact isThrown_mapWords shape keeps (proper.throws old listed)

end Shapes

end ClassRenaming
