import ClassRenaming.Proofs.Texts
import ClassRenaming.Sites.Listing
import ClassRenaming.Sites.Mapping

/-!
A class with its texts mapped, each by the part that it plays. Renaming is of this kind, and so is
what becomes of the texts of a class when they are written and read again. The sites of the class
are mapped with it, and a map that changes no text leaves it as it is.
-/

namespace ClassRenaming

/-- What to make of a text, by the part that it plays. -/
structure TextMap where
  /-- Names of classes and descriptors. -/
  binary : String → String
  /-- Texts of string constants. -/
  dotted : String → String
  /-- What names no class: members, elements, local variables, attributes. -/
  name : String → String
  signature : Signature.Kind → String → String

namespace TextMap

def all (f : String → String) : TextMap := ⟨f, f, f, fun _ => f⟩

def ofTable (table : Renaming) : TextMap := ⟨table.binary, table.dotted, id, table.signature⟩

end TextMap

variable (m : TextMap)

def Site.mapTexts : Site → Site
  | .binary text => .binary (m.binary text)
  | .dotted text => .dotted (m.dotted text)
  | .signature kind text => .signature kind (m.signature kind text)

def MemberRef.mapTexts (member : MemberRef) : MemberRef :=
  ⟨m.binary member.owner, m.name member.name, m.binary member.descriptor⟩

def MethodHandle.mapTexts (handle : MethodHandle) : MethodHandle :=
  { handle with member := handle.member.mapTexts m }

mutual

def Constant.mapTexts : Constant → Constant
  | .integer value => .integer value
  | .float bits => .float bits
  | .long value => .long value
  | .double bits => .double bits
  | .string text => .string (m.dotted text)
  | .classRef name => .classRef (m.binary name)
  | .methodType descriptor => .methodType (m.binary descriptor)
  | .methodHandle handle => .methodHandle (handle.mapTexts m)
  | .dynamic name descriptor ⟨method, arguments⟩ =>
    .dynamic (m.name name) (m.binary descriptor)
      ⟨method.mapTexts m, Constant.mapTextsList arguments⟩

def Constant.mapTextsList : List Constant → List Constant
  | [] => []
  | first :: rest => first.mapTexts :: Constant.mapTextsList rest

end

theorem Constant.mapTextsList_eq_map (constants : List Constant) :
    Constant.mapTextsList m constants = constants.map (Constant.mapTexts m) := by
  induction constants with
  | nil => rfl
  | cons first rest ih => exact congrArg _ ih

def mapBootstrapTexts (bootstrap : BootstrapMethod) : BootstrapMethod :=
  ⟨bootstrap.method.mapTexts m, Constant.mapTextsList m bootstrap.arguments⟩

mutual

def ElementValue.mapTexts : ElementValue → ElementValue
  | .string text => .string (m.dotted text)
  | .enumConstant descriptor name => .enumConstant (m.binary descriptor) (m.name name)
  | .classLiteral descriptor => .classLiteral (m.binary descriptor)
  | .nested descriptor elements =>
    .nested (m.binary descriptor) (ElementValue.mapTextsElements elements)
  | .array values => .array (ElementValue.mapTextsList values)
  | .byte value => .byte value
  | .char unit => .char unit
  | .short value => .short value
  | .int value => .int value
  | .long value => .long value
  | .float bits => .float bits
  | .double bits => .double bits
  | .boolean value => .boolean value

def ElementValue.mapTextsElements : List (String × ElementValue) → List (String × ElementValue)
  | [] => []
  | (name, value) :: rest => (m.name name, value.mapTexts) :: ElementValue.mapTextsElements rest

def ElementValue.mapTextsList : List ElementValue → List ElementValue
  | [] => []
  | value :: rest => value.mapTexts :: ElementValue.mapTextsList rest

end

theorem ElementValue.mapTextsElements_eq_map (elements : List (String × ElementValue)) :
    ElementValue.mapTextsElements m elements =
      elements.map (Prod.map m.name (ElementValue.mapTexts m)) := by
  induction elements with
  | nil => rfl
  | cons first rest ih => exact congrArg _ ih

theorem ElementValue.mapTextsList_eq_map (values : List ElementValue) :
    ElementValue.mapTextsList m values = values.map (ElementValue.mapTexts m) := by
  induction values with
  | nil => rfl
  | cons first rest ih => exact congrArg _ ih

def Annotation.mapTexts (item : Annotation) : Annotation :=
  ⟨m.binary item.descriptor, ElementValue.mapTextsElements m item.elements⟩

def TypeAnnotation.mapTexts (item : TypeAnnotation) : TypeAnnotation :=
  { item with value := item.value.mapTexts m }

def VerificationType.mapTexts : VerificationType → VerificationType
  | .object name => .object (m.binary name)
  | other => other

def Frame.mapTexts (frame : Frame) : Frame :=
  { frame with kind := frame.kind.map (VerificationType.mapTexts m) }

def Instruction.mapTexts : Instruction → Instruction
  | .type opcode name => .type opcode (m.binary name)
  | .multiArray name dimensions => .multiArray (m.binary name) dimensions
  | .field opcode member => .field opcode (member.mapTexts m)
  | .method opcode member isInterface => .method opcode (member.mapTexts m) isInterface
  | .load opcode constant => .load opcode (constant.mapTexts m)
  | .invokeDynamic name descriptor bootstrap =>
    .invokeDynamic (m.name name) (m.binary descriptor) (mapBootstrapTexts m bootstrap)
  | other => other

def Placed.mapTexts (placed : Placed) : Placed :=
  { placed with instruction := placed.instruction.mapTexts m }

def Handler.mapTexts (handler : Handler) : Handler :=
  { handler with catchType := handler.catchType.map m.binary }

def LocalVariable.mapTexts (name descriptor : String → String) (entry : LocalVariable) :
    LocalVariable :=
  { entry with name := name entry.name, descriptor := descriptor entry.descriptor }

def CodeAttribute.mapTexts : CodeAttribute → CodeAttribute
  | .stackMap frames => .stackMap (frames.map (Frame.mapTexts m))
  | .localVariables entries => .localVariables (entries.map (LocalVariable.mapTexts m.name m.binary))
  | .localVariableTypes entries =>
    .localVariableTypes (entries.map (LocalVariable.mapTexts m.name (m.signature .field)))
  | .typeAnnotations visibility entries =>
    .typeAnnotations visibility (entries.map fun item => item.mapTexts m)
  | .lineNumbers lines => .lineNumbers lines
  | .unknown name info => .unknown (m.name name) info

def Code.mapTexts (code : Code) : Code :=
  { code with
    instructions := code.instructions.map (Placed.mapTexts m)
    handlers := code.handlers.map (Handler.mapTexts m)
    attributes := code.attributes.map (CodeAttribute.mapTexts m) }

def InnerClass.mapTexts (entry : InnerClass) : InnerClass :=
  { entry with
    inner := m.binary entry.inner
    outer := entry.outer.map m.binary
    name := entry.name.map m.name }

mutual

/-- Maps the texts of an attribute whose owner has signatures of the given kind. A constant value
that is no string is no site, whatever its texts are. -/
def Attribute.mapTexts (kind : Signature.Kind) : Attribute → Attribute
  | .signature text => .signature (m.signature kind text)
  | .constantValue (.string text) => .constantValue (.string (m.dotted text))
  | .constantValue constant => .constantValue (constant.mapTexts (.all m.name))
  | .exceptions names => .exceptions (names.map m.binary)
  | .annotations visibility entries =>
    .annotations visibility (entries.map fun item => item.mapTexts m)
  | .parameterAnnotations visibility parameters =>
    .parameterAnnotations visibility
      (parameters.map fun entries => entries.map fun item => item.mapTexts m)
  | .typeAnnotations visibility entries =>
    .typeAnnotations visibility (entries.map fun item => item.mapTexts m)
  | .annotationDefault value => .annotationDefault (value.mapTexts m)
  | .record components => .record (Attribute.mapTextsComponents components)
  | .innerClasses classes => .innerClasses (classes.map (InnerClass.mapTexts m))
  | .enclosingMethod owner method =>
    .enclosingMethod (m.binary owner)
      (method.map fun (name, descriptor) => (m.name name, m.binary descriptor))
  | .nestHost name => .nestHost (m.binary name)
  | .nestMembers names => .nestMembers (names.map m.binary)
  | .permittedSubclasses names => .permittedSubclasses (names.map m.binary)
  | .code body => .code (body.mapTexts m)
  | .bootstrapMethods => .bootstrapMethods
  | .unknown name info => .unknown (m.name name) info

def Attribute.mapTextsComponents :
    List (RecordComponent Attribute) → List (RecordComponent Attribute)
  | [] => []
  | ⟨name, descriptor, attributes⟩ :: rest =>
    ⟨m.name name, m.binary descriptor, Attribute.mapTextsList .field attributes⟩ ::
      Attribute.mapTextsComponents rest

def Attribute.mapTextsList (kind : Signature.Kind) : List Attribute → List Attribute
  | [] => []
  | first :: rest => first.mapTexts kind :: Attribute.mapTextsList kind rest

end

theorem Attribute.mapTextsList_eq_map (kind : Signature.Kind) (attributes : List Attribute) :
    Attribute.mapTextsList m kind attributes = attributes.map (Attribute.mapTexts m kind) := by
  induction attributes with
  | nil => rfl
  | cons first rest ih => exact congrArg _ ih

def RecordComponent.mapTexts (component : RecordComponent Attribute) : RecordComponent Attribute :=
  ⟨m.name component.name, m.binary component.descriptor,
    component.attributes.map (Attribute.mapTexts m .field)⟩

theorem Attribute.mapTextsComponents_eq_map (components : List (RecordComponent Attribute)) :
    Attribute.mapTextsComponents m components = components.map (RecordComponent.mapTexts m) := by
  induction components with
  | nil => rfl
  | cons first rest ih =>
    obtain ⟨name, descriptor, attributes⟩ := first
    rw [Attribute.mapTextsComponents, ih, Attribute.mapTextsList_eq_map]
    rfl

def Member.mapTexts (kind : Signature.Kind) (member : Member) : Member :=
  ⟨member.access, m.name member.name, m.binary member.descriptor,
    Attribute.mapTextsList m kind member.attributes⟩

def ClassHeader.mapTexts (header : ClassHeader) : ClassHeader :=
  { header with
    name := m.binary header.name
    superclass := header.superclass.map m.binary
    interfaces := header.interfaces.map m.binary }

def ClassModel.mapTexts (model : ClassModel) : ClassModel where
  toClassHeader := model.toClassHeader.mapTexts m
  fields := model.fields.map (Member.mapTexts m .field)
  methods := model.methods.map (Member.mapTexts m .method)
  attributes := Attribute.mapTextsList m .type model.attributes

/-! The sites of what is mapped are the sites, mapped. -/

section Sites

theorem optionalSite_map (name : Option String) :
    optionalSite (name.map m.binary) = (optionalSite name).map (Site.mapTexts m) := by
  cases name <;> rfl

mutual

theorem Constant.sites_mapTexts : ∀ constant : Constant,
    (constant.mapTexts m).sites = constant.sites.map (Site.mapTexts m)
  | .integer _ | .float _ | .long _ | .double _ | .string _ | .classRef _ | .methodType _
  | .methodHandle _ => rfl
  | .dynamic name descriptor ⟨method, arguments⟩ => by
    simp only [Constant.mapTexts, Constant.sites, Constant.listSites_mapTexts arguments,
      List.map_cons, List.map_append]
    rfl

theorem Constant.listSites_mapTexts : ∀ constants : List Constant,
    Constant.listSites (Constant.mapTextsList m constants) =
      (Constant.listSites constants).map (Site.mapTexts m)
  | [] => rfl
  | first :: rest => by
    simp only [Constant.mapTextsList, Constant.listSites, Constant.sites_mapTexts first,
      Constant.listSites_mapTexts rest, List.map_append]

end

theorem bootstrapSites_mapTexts (bootstrap : BootstrapMethod) :
    bootstrapSites (mapBootstrapTexts m bootstrap) =
      (bootstrapSites bootstrap).map (Site.mapTexts m) := by
  simp only [bootstrapSites, mapBootstrapTexts, Constant.listSites_mapTexts, List.map_append]
  rfl

mutual

theorem ElementValue.sites_mapTexts : ∀ value : ElementValue,
    (value.mapTexts m).sites = value.sites.map (Site.mapTexts m)
  | .byte _ | .char _ | .short _ | .int _ | .long _ | .float _ | .double _ | .boolean _
  | .string _ | .enumConstant .. | .classLiteral _ => rfl
  | .nested descriptor elements => by
    simp only [ElementValue.mapTexts, ElementValue.sites, List.map_cons,
      ElementValue.elementSites_mapTexts elements]
    rfl
  | .array values => by
    simp only [ElementValue.mapTexts, ElementValue.sites, ElementValue.listSites_mapTexts values]

theorem ElementValue.elementSites_mapTexts : ∀ elements : List (String × ElementValue),
    ElementValue.elementSites (ElementValue.mapTextsElements m elements) =
      (ElementValue.elementSites elements).map (Site.mapTexts m)
  | [] => rfl
  | (name, value) :: rest => by
    simp only [ElementValue.mapTextsElements, ElementValue.elementSites,
      ElementValue.sites_mapTexts value, ElementValue.elementSites_mapTexts rest, List.map_append]

theorem ElementValue.listSites_mapTexts : ∀ values : List ElementValue,
    ElementValue.listSites (ElementValue.mapTextsList m values) =
      (ElementValue.listSites values).map (Site.mapTexts m)
  | [] => rfl
  | value :: rest => by
    simp only [ElementValue.mapTextsList, ElementValue.listSites, ElementValue.sites_mapTexts value,
      ElementValue.listSites_mapTexts rest, List.map_append]

end

theorem Annotation.sites_mapTexts (item : Annotation) :
    (item.mapTexts m).sites = item.sites.map (Site.mapTexts m) := by
  simp only [sites, mapTexts, ElementValue.elementSites_mapTexts, List.map_cons]
  rfl

theorem TypeAnnotation.sites_mapTexts (item : TypeAnnotation) :
    (item.mapTexts m).sites = item.sites.map (Site.mapTexts m) :=
  Annotation.sites_mapTexts m item.value

theorem VerificationType.sites_mapTexts (type : VerificationType) :
    (type.mapTexts m).sites = type.sites.map (Site.mapTexts m) := by
  cases type <;> rfl

theorem FrameKind.types_map (f : VerificationType → VerificationType) (kind : FrameKind) :
    (kind.map f).types = kind.types.map f := by
  cases kind <;> simp [FrameKind.map, FrameKind.types]

theorem flatMap_mapped {α σ : Type} {f : α → α} {g : σ → σ} {s : α → List σ}
    (each : ∀ item, s (f item) = (s item).map g) (items : List α) :
    (items.map f).flatMap s = (items.flatMap s).map g := by
  simp only [List.flatMap_map, each, List.map_flatMap]

theorem Instruction.sites_mapTexts (instruction : Instruction) :
    (instruction.mapTexts m).sites = instruction.sites.map (Site.mapTexts m) := by
  cases instruction with
  | load opcode constant => exact Constant.sites_mapTexts m constant
  | invokeDynamic name descriptor bootstrap =>
    simp only [Instruction.mapTexts, Instruction.sites, bootstrapSites_mapTexts, List.map_cons]
    rfl
  | _ => rfl

theorem CodeAttribute.sites_mapTexts (item : CodeAttribute) :
    (item.mapTexts m).sites = item.sites.map (Site.mapTexts m) := by
  cases item with
  | stackMap frames =>
    refine flatMap_mapped (fun frame => ?_) frames
    simp only [Frame.mapTexts, FrameKind.types_map]
    exact flatMap_mapped (VerificationType.sites_mapTexts m) frame.kind.types
  | typeAnnotations visibility entries =>
    exact flatMap_mapped (·.sites_mapTexts m) entries
  | localVariables entries =>
    simp only [CodeAttribute.mapTexts, CodeAttribute.sites, List.map_map]
    rfl
  | localVariableTypes entries =>
    simp only [CodeAttribute.mapTexts, CodeAttribute.sites, List.map_map]
    rfl
  | lineNumbers _ => rfl
  | unknown _ _ => rfl

theorem Code.sites_mapTexts (code : Code) :
    (code.mapTexts m).sites = code.sites.map (Site.mapTexts m) := by
  have instructions := flatMap_mapped (f := Placed.mapTexts m)
    (s := fun placed => placed.instruction.sites)
    (fun placed => Instruction.sites_mapTexts m placed.instruction) code.instructions
  have handlers := flatMap_mapped (f := Handler.mapTexts m)
    (s := fun handler => optionalSite handler.catchType)
    (fun handler => optionalSite_map m handler.catchType) code.handlers
  have attributes := flatMap_mapped (CodeAttribute.sites_mapTexts m) code.attributes
  simp only [Code.sites, Code.mapTexts, List.map_append, instructions, handlers, attributes]

theorem InnerClass.sites_mapTexts (entry : InnerClass) :
    (entry.mapTexts m).sites = entry.sites.map (Site.mapTexts m) := by
  simp only [InnerClass.sites, InnerClass.mapTexts, optionalSite_map, List.map_cons]
  rfl

theorem map_binary_mapTexts (names : List String) :
    (names.map m.binary).map Site.binary = (names.map Site.binary).map (Site.mapTexts m) := by
  simp only [List.map_map]
  rfl

mutual

theorem Attribute.sites_mapTexts (kind : Signature.Kind) : ∀ item : Attribute,
    (item.mapTexts m kind).sites kind = (item.sites kind).map (Site.mapTexts m)
  | .signature _ | .nestHost _ | .bootstrapMethods | .unknown _ _ => rfl
  | .constantValue constant => by cases constant <;> rfl
  | .exceptions names | .nestMembers names | .permittedSubclasses names =>
    map_binary_mapTexts m names
  | .annotations _ entries => flatMap_mapped (·.sites_mapTexts m) entries
  | .parameterAnnotations _ parameters => by
    simp only [Attribute.mapTexts, Attribute.sites, ← List.map_flatten]
    exact flatMap_mapped (·.sites_mapTexts m) parameters.flatten
  | .typeAnnotations _ entries => flatMap_mapped (·.sites_mapTexts m) entries
  | .annotationDefault value => ElementValue.sites_mapTexts m value
  | .record components => Attribute.componentSites_mapTexts components
  | .innerClasses classes => flatMap_mapped (InnerClass.sites_mapTexts m) classes
  | .enclosingMethod _ method => by cases method <;> rfl
  | .code body => Code.sites_mapTexts m body

theorem Attribute.componentSites_mapTexts : ∀ components : List (RecordComponent Attribute),
    Attribute.componentSites (Attribute.mapTextsComponents m components) =
      (Attribute.componentSites components).map (Site.mapTexts m)
  | [] => rfl
  | ⟨name, descriptor, attributes⟩ :: rest => by
    simp only [Attribute.mapTextsComponents, Attribute.componentSites, List.map_cons,
      List.map_append, Attribute.listSites_mapTexts .field attributes,
      Attribute.componentSites_mapTexts rest]
    rfl

theorem Attribute.listSites_mapTexts (kind : Signature.Kind) : ∀ attributes : List Attribute,
    Attribute.listSites kind (Attribute.mapTextsList m kind attributes) =
      (Attribute.listSites kind attributes).map (Site.mapTexts m)
  | [] => rfl
  | first :: rest => by
    simp only [Attribute.mapTextsList, Attribute.listSites, List.map_append,
      Attribute.sites_mapTexts kind first, Attribute.listSites_mapTexts kind rest]

end

theorem Member.sites_mapTexts (kind : Signature.Kind) (member : Member) :
    (member.mapTexts m kind).sites kind = (member.sites kind).map (Site.mapTexts m) := by
  simp only [Member.sites, Member.mapTexts, Attribute.listSites_mapTexts, List.map_cons]
  rfl

theorem ClassModel.sites_mapTexts (model : ClassModel) :
    (model.mapTexts m).sites = model.sites.map (Site.mapTexts m) := by
  simp only [ClassModel.sites, ClassModel.mapTexts, ClassHeader.mapTexts, optionalSite_map,
    map_binary_mapTexts, Attribute.listSites_mapTexts, flatMap_mapped (Member.sites_mapTexts m _),
    List.map_cons, List.map_append]
  rfl

end Sites

/-! A map that changes no text changes nothing. -/

theorem map_eq_self_iff {α : Type} {f : α → α} {items : List α} :
    items.map f = items ↔ ∀ item ∈ items, f item = item := by
  induction items with
  | nil => simp
  | cons item items ih => simp [ih]

def Fixes (f : String → String) (texts : List String) : Prop := ∀ text ∈ texts, f text = text

namespace Fixes

variable {f : String → String} {text : String} {texts more : List String}

theorem head (fixes : Fixes f (text :: texts)) : f text = text := fixes text (by simp)

theorem tail (fixes : Fixes f (text :: texts)) : Fixes f texts :=
  fun other member => fixes other (by simp [member])

theorem left (fixes : Fixes f (texts ++ more)) : Fixes f texts :=
  fun other member => fixes other (by simp [member])

theorem right (fixes : Fixes f (texts ++ more)) : Fixes f more :=
  fun other member => fixes other (by simp [member])

theorem map_eq_self (fixes : Fixes f texts) : texts.map f = texts :=
  (List.map_congr_left fixes).trans (List.map_id texts)

theorem option_eq_self {name : Option String} (fixes : Fixes f name.toList) : name.map f = name := by
  cases name with
  | none => rfl
  | some name => exact congrArg some fixes.head

theorem items_eq_self {α : Type} {g : α → α} {parts : α → List String} {items : List α}
    (fixes : Fixes f (items.flatMap parts)) (each : ∀ item, Fixes f (parts item) → g item = item) :
    items.map g = items := by
  have same : ∀ item ∈ items, g item = id item := fun item member =>
    each item fun text inside => fixes text (List.mem_flatMap.2 ⟨item, member, inside⟩)
  exact (List.map_congr_left same).trans (List.map_id items)

end Fixes

section Fixes

variable {f : String → String}

theorem MemberRef.mapTexts_eq_self {member : MemberRef} (fixes : Fixes f member.texts) :
    member.mapTexts (.all f) = member := by
  simp only [MemberRef.mapTexts, TextMap.all, fixes.head, fixes.tail.head, fixes.tail.tail.head]

theorem MethodHandle.mapTexts_eq_self {handle : MethodHandle} (fixes : Fixes f handle.texts) :
    handle.mapTexts (.all f) = handle := by
  rw [MethodHandle.mapTexts, MemberRef.mapTexts_eq_self fixes]

mutual

theorem Constant.mapTexts_eq_self : ∀ constant : Constant, Fixes f constant.texts →
    constant.mapTexts (.all f) = constant
  | .integer _, _ | .float _, _ | .long _, _ | .double _, _ => rfl
  | .string _, fixes => congrArg _ fixes.head
  | .classRef _, fixes => congrArg _ fixes.head
  | .methodType _, fixes => congrArg _ fixes.head
  | .methodHandle _, fixes => congrArg _ (MethodHandle.mapTexts_eq_self fixes)
  | .dynamic name descriptor ⟨method, arguments⟩, fixes => by
    have inside : Fixes f (method.texts ++ Constant.listTexts arguments) := fixes.tail.tail
    simp only [Constant.mapTexts, MethodHandle.mapTexts_eq_self inside.left,
      Constant.mapTextsList_eq_self arguments inside.right]
    simp only [TextMap.all, fixes.head, fixes.tail.head]

theorem Constant.mapTextsList_eq_self : ∀ constants : List Constant,
    Fixes f (Constant.listTexts constants) → Constant.mapTextsList (.all f) constants = constants
  | [], _ => rfl
  | first :: rest, fixes => by
    simp only [Constant.mapTextsList, Constant.mapTexts_eq_self first fixes.left,
      Constant.mapTextsList_eq_self rest fixes.right]

end

theorem mapBootstrapTexts_eq_self {bootstrap : BootstrapMethod}
    (fixes : Fixes f (bootstrapTexts bootstrap)) :
    mapBootstrapTexts (.all f) bootstrap = bootstrap := by
  rw [mapBootstrapTexts, MethodHandle.mapTexts_eq_self fixes.left,
    Constant.mapTextsList_eq_self _ fixes.right]

mutual

theorem ElementValue.mapTexts_eq_self : ∀ value : ElementValue, Fixes f value.texts →
    value.mapTexts (.all f) = value
  | .byte _, _ | .char _, _ | .short _, _ | .int _, _ | .long _, _ | .float _, _ | .double _, _
  | .boolean _, _ => rfl
  | .string _, fixes => congrArg _ fixes.head
  | .classLiteral _, fixes => congrArg _ fixes.head
  | .enumConstant _ _, fixes => by
    simp only [ElementValue.mapTexts, TextMap.all, fixes.head, fixes.tail.head]
  | .nested descriptor elements, fixes => by
    simp only [ElementValue.mapTexts, ElementValue.mapTextsElements_eq_self elements fixes.tail]
    simp only [TextMap.all, fixes.head]
  | .array values, fixes => congrArg _ (ElementValue.mapTextsList_eq_self values fixes)

theorem ElementValue.mapTextsElements_eq_self : ∀ elements : List (String × ElementValue),
    Fixes f (ElementValue.elementTexts elements) →
      ElementValue.mapTextsElements (.all f) elements = elements
  | [], _ => rfl
  | (name, value) :: rest, fixes => by
    have inside : Fixes f (value.texts ++ ElementValue.elementTexts rest) := fixes.tail
    simp only [ElementValue.mapTextsElements, ElementValue.mapTexts_eq_self value inside.left,
      ElementValue.mapTextsElements_eq_self rest inside.right]
    simp only [TextMap.all, fixes.head]

theorem ElementValue.mapTextsList_eq_self : ∀ values : List ElementValue,
    Fixes f (ElementValue.listTexts values) → ElementValue.mapTextsList (.all f) values = values
  | [], _ => rfl
  | value :: rest, fixes => by
    simp only [ElementValue.mapTextsList, ElementValue.mapTexts_eq_self value fixes.left,
      ElementValue.mapTextsList_eq_self rest fixes.right]

end

theorem Annotation.mapTexts_eq_self (item : Annotation) (fixes : Fixes f item.texts) :
    item.mapTexts (.all f) = item := by
  simp only [mapTexts, ElementValue.mapTextsElements_eq_self _ fixes.tail]
  simp only [TextMap.all, fixes.head]

theorem TypeAnnotation.mapTexts_eq_self (item : TypeAnnotation) (fixes : Fixes f item.texts) :
    item.mapTexts (.all f) = item := by
  rw [mapTexts, Annotation.mapTexts_eq_self _ fixes]

theorem VerificationType.mapTexts_eq_self (type : VerificationType) (fixes : Fixes f type.texts) :
    type.mapTexts (.all f) = type := by
  cases type with
  | object name => exact congrArg _ fixes.head
  | _ => rfl

theorem Frame.mapTexts_eq_self (frame : Frame) (fixes : Fixes f frame.texts) :
    frame.mapTexts (.all f) = frame := by
  have each {types : List VerificationType} (inside : Fixes f (types.flatMap VerificationType.texts)) :
      types.map (VerificationType.mapTexts (.all f)) = types :=
    inside.items_eq_self VerificationType.mapTexts_eq_self
  obtain ⟨offset, kind⟩ := frame
  cases kind with
  | same => rfl
  | chop count => rfl
  | sameWithItem item =>
    have inside : Fixes f item.texts := fun text member => fixes text (List.mem_append_left _ member)
    simp only [Frame.mapTexts, FrameKind.map, VerificationType.mapTexts_eq_self item inside]
  | append types =>
    have inside : Fixes f (types.flatMap VerificationType.texts) := fixes
    simp only [Frame.mapTexts, FrameKind.map, each inside]
  | full locals stack =>
    have both : Fixes f (locals.flatMap VerificationType.texts ++ stack.flatMap VerificationType.texts) := by
      rw [← List.flatMap_append]
      exact fixes
    simp only [Frame.mapTexts, FrameKind.map, each both.left, each both.right]

theorem Instruction.mapTexts_eq_self (instruction : Instruction) (fixes : Fixes f instruction.texts) :
    instruction.mapTexts (.all f) = instruction := by
  cases instruction with
  | load opcode constant => exact congrArg _ (Constant.mapTexts_eq_self constant fixes)
  | type opcode name => exact congrArg _ fixes.head
  | multiArray name dimensions => exact congrArg (Instruction.multiArray · dimensions) fixes.head
  | field opcode member => exact congrArg _ (MemberRef.mapTexts_eq_self fixes)
  | method opcode member isInterface =>
    exact congrArg (Instruction.method opcode · isInterface) (MemberRef.mapTexts_eq_self fixes)
  | invokeDynamic name descriptor bootstrap =>
    simp only [Instruction.mapTexts, mapBootstrapTexts_eq_self fixes.tail.tail]
    simp only [TextMap.all, fixes.head, fixes.tail.head]
  | _ => rfl

theorem LocalVariable.mapTexts_eq_self (entry : LocalVariable) (fixes : Fixes f entry.texts) :
    entry.mapTexts f f = entry := by
  rw [LocalVariable.mapTexts, fixes.head, fixes.tail.head]

theorem CodeAttribute.mapTexts_eq_self (item : CodeAttribute) (fixes : Fixes f item.texts) :
    item.mapTexts (.all f) = item := by
  cases item with
  | stackMap frames => exact congrArg _ (fixes.items_eq_self Frame.mapTexts_eq_self)
  | lineNumbers lines => rfl
  | localVariables table => exact congrArg _ (fixes.items_eq_self LocalVariable.mapTexts_eq_self)
  | localVariableTypes table => exact congrArg _ (fixes.items_eq_self LocalVariable.mapTexts_eq_self)
  | typeAnnotations visibility entries =>
    exact congrArg _ (fixes.items_eq_self TypeAnnotation.mapTexts_eq_self)
  | unknown name info => exact congrArg (CodeAttribute.unknown · info) fixes.head

theorem Code.mapTexts_eq_self (code : Code) (fixes : Fixes f code.texts) :
    code.mapTexts (.all f) = code := by
  have instructions : code.instructions.map (Placed.mapTexts (.all f)) = code.instructions :=
    fixes.left.left.items_eq_self fun placed inside => by
      rw [Placed.mapTexts, Instruction.mapTexts_eq_self _ inside]
  have handlers : code.handlers.map (Handler.mapTexts (.all f)) = code.handlers :=
    fixes.left.right.items_eq_self fun handler inside => by
      simp only [Handler.mapTexts, TextMap.all, inside.option_eq_self]
  simp only [Code.mapTexts, instructions, handlers,
    fixes.right.items_eq_self CodeAttribute.mapTexts_eq_self]

theorem InnerClass.mapTexts_eq_self (entry : InnerClass) (fixes : Fixes f entry.texts) :
    entry.mapTexts (.all f) = entry := by
  have inner := fixes.left.head
  have outer := fixes.left.tail.option_eq_self
  have name := fixes.right.option_eq_self
  simp only [InnerClass.mapTexts, TextMap.all, inner, outer, name]

mutual

theorem Attribute.mapTexts_eq_self (kind : Signature.Kind) : ∀ item : Attribute,
    Fixes f item.texts → item.mapTexts (.all f) kind = item
  | .signature _, fixes | .nestHost _, fixes => congrArg _ fixes.head
  | .constantValue constant, fixes => by
    have same := Constant.mapTexts_eq_self constant fixes
    cases constant with
    | string text => exact congrArg (fun text => Attribute.constantValue (.string text)) fixes.head
    | _ => exact congrArg _ same
  | .exceptions _, fixes | .nestMembers _, fixes | .permittedSubclasses _, fixes =>
    congrArg _ fixes.map_eq_self
  | .annotations _ _, fixes => congrArg _ (fixes.items_eq_self Annotation.mapTexts_eq_self)
  | .parameterAnnotations visibility parameters, fixes => by
    rw [Attribute.texts, ← List.flatMap_id, List.flatMap_assoc] at fixes
    exact congrArg _ (fixes.items_eq_self fun entries inside =>
      inside.items_eq_self Annotation.mapTexts_eq_self)
  | .typeAnnotations _ _, fixes => congrArg _ (fixes.items_eq_self TypeAnnotation.mapTexts_eq_self)
  | .annotationDefault value, fixes => congrArg _ (ElementValue.mapTexts_eq_self value fixes)
  | .record components, fixes => congrArg _ (Attribute.mapTextsComponents_eq_self components fixes)
  | .innerClasses _, fixes => congrArg _ (fixes.items_eq_self InnerClass.mapTexts_eq_self)
  | .enclosingMethod owner none, fixes => congrArg (Attribute.enclosingMethod · none) fixes.head
  | .enclosingMethod owner (some (name, descriptor)), fixes => by
    simp only [Attribute.mapTexts, TextMap.all, Option.map_some, fixes.head, fixes.tail.head,
      fixes.tail.tail.head]
  | .code body, fixes => congrArg _ (Code.mapTexts_eq_self body fixes)
  | .bootstrapMethods, _ => rfl
  | .unknown _ info, fixes => congrArg (Attribute.unknown · info) fixes.head

theorem Attribute.mapTextsComponents_eq_self : ∀ components : List (RecordComponent Attribute),
    Fixes f (Attribute.componentTexts components) →
      Attribute.mapTextsComponents (.all f) components = components
  | [], _ => rfl
  | ⟨name, descriptor, attributes⟩ :: rest, fixes => by
    have inside : Fixes f (Attribute.listTexts attributes ++ Attribute.componentTexts rest) :=
      fixes.tail.tail
    simp only [Attribute.mapTextsComponents,
      Attribute.mapTextsList_eq_self .field attributes inside.left,
      Attribute.mapTextsComponents_eq_self rest inside.right]
    simp only [TextMap.all, fixes.head, fixes.tail.head]

theorem Attribute.mapTextsList_eq_self (kind : Signature.Kind) : ∀ attributes : List Attribute,
    Fixes f (Attribute.listTexts attributes) →
      Attribute.mapTextsList (.all f) kind attributes = attributes
  | [], _ => rfl
  | first :: rest, fixes => by
    simp only [Attribute.mapTextsList, Attribute.mapTexts_eq_self kind first fixes.left,
      Attribute.mapTextsList_eq_self kind rest fixes.right]

end

theorem Member.mapTexts_eq_self (kind : Signature.Kind) (member : Member)
    (fixes : Fixes f member.texts) : member.mapTexts (.all f) kind = member := by
  simp only [Member.mapTexts, Attribute.mapTextsList_eq_self kind _ fixes.tail.tail]
  simp only [TextMap.all, fixes.head, fixes.tail.head]

theorem ClassModel.mapTexts_eq_self (model : ClassModel) (fixes : Fixes f model.texts) :
    model.mapTexts (.all f) = model := by
  have header : Fixes f (model.name :: model.superclass.toList ++ model.interfaces) :=
    fixes.left.left.left
  have name := header.left.head
  have superclass := header.left.tail.option_eq_self
  have interfaces := header.right.map_eq_self
  have fields : model.fields.map (Member.mapTexts (.all f) .field) = model.fields :=
    fixes.left.left.right.items_eq_self (Member.mapTexts_eq_self .field)
  have methods : model.methods.map (Member.mapTexts (.all f) .method) = model.methods :=
    fixes.left.right.items_eq_self (Member.mapTexts_eq_self .method)
  have attributes := Attribute.mapTextsList_eq_self .type _ fixes.right
  simp only [ClassModel.mapTexts, ClassHeader.mapTexts, fields, methods, attributes]
  simp only [TextMap.all, name, superclass, interfaces]

end Fixes

section Rename

variable (table : Renaming)

mutual

theorem Constant.rename_eq : ∀ constant : Constant,
    constant.rename table = constant.mapTexts (.ofTable table)
  | .integer _ | .float _ | .long _ | .double _ | .string _ | .classRef _ | .methodType _
  | .methodHandle _ => rfl
  | .dynamic name descriptor ⟨method, arguments⟩ => by
    simp only [Constant.rename, Constant.mapTexts, Constant.renameList_eq arguments]
    rfl

theorem Constant.renameList_eq : ∀ constants : List Constant,
    Constant.renameList table constants = Constant.mapTextsList (.ofTable table) constants
  | [] => rfl
  | first :: rest => by
    simp only [Constant.renameList, Constant.mapTextsList, Constant.rename_eq first,
      Constant.renameList_eq rest]

end

mutual

theorem ElementValue.rename_eq : ∀ value : ElementValue,
    value.rename table = value.mapTexts (.ofTable table)
  | .byte _ | .char _ | .short _ | .int _ | .long _ | .float _ | .double _ | .boolean _
  | .string _ | .enumConstant .. | .classLiteral _ => rfl
  | .nested descriptor elements => by
    simp only [ElementValue.rename, ElementValue.mapTexts, ElementValue.renameElements_eq elements]
    rfl
  | .array values => by
    simp only [ElementValue.rename, ElementValue.mapTexts, ElementValue.renameList_eq values]

theorem ElementValue.renameElements_eq : ∀ elements : List (String × ElementValue),
    ElementValue.renameElements table elements =
      ElementValue.mapTextsElements (.ofTable table) elements
  | [] => rfl
  | (name, value) :: rest => by
    simp only [ElementValue.renameElements, ElementValue.mapTextsElements,
      ElementValue.rename_eq value, ElementValue.renameElements_eq rest]
    rfl

theorem ElementValue.renameList_eq : ∀ values : List ElementValue,
    ElementValue.renameList table values = ElementValue.mapTextsList (.ofTable table) values
  | [] => rfl
  | value :: rest => by
    simp only [ElementValue.renameList, ElementValue.mapTextsList, ElementValue.rename_eq value,
      ElementValue.renameList_eq rest]

end

theorem Annotation.rename_eq (item : Annotation) :
    item.rename table = item.mapTexts (.ofTable table) := by
  simp only [rename, mapTexts, ElementValue.renameElements_eq]
  rfl

theorem TypeAnnotation.rename_eq (item : TypeAnnotation) :
    item.rename table = item.mapTexts (.ofTable table) := by
  simp only [rename, mapTexts, Annotation.rename_eq]

theorem VerificationType.rename_eq (type : VerificationType) :
    type.rename table = type.mapTexts (.ofTable table) := by
  cases type <;> rfl

theorem Frame.rename_eq (frame : Frame) :
    frame.rename table = frame.mapTexts (.ofTable table) := by
  rw [Frame.rename, Frame.mapTexts, funext (VerificationType.rename_eq table)]

theorem Instruction.rename_eq (instruction : Instruction) :
    instruction.rename table = instruction.mapTexts (.ofTable table) := by
  cases instruction with
  | load opcode constant => exact congrArg (Instruction.load opcode) (Constant.rename_eq table constant)
  | invokeDynamic name descriptor bootstrap =>
    simp only [Instruction.rename, Instruction.mapTexts, renameBootstrap, mapBootstrapTexts,
      Constant.renameList_eq]
    rfl
  | _ => rfl

theorem CodeAttribute.rename_eq (item : CodeAttribute) :
    item.rename table = item.mapTexts (.ofTable table) := by
  cases item with
  | stackMap frames =>
    simp only [CodeAttribute.rename, CodeAttribute.mapTexts, funext (Frame.rename_eq table)]
  | typeAnnotations visibility entries =>
    simp only [CodeAttribute.rename, CodeAttribute.mapTexts, TypeAnnotation.rename_eq]
  | _ => rfl

theorem Code.rename_eq (code : Code) : code.rename table = code.mapTexts (.ofTable table) := by
  simp only [Code.rename, Code.mapTexts, Instruction.rename_eq,
    funext (CodeAttribute.rename_eq table)]
  rfl

theorem InnerClass.rename_eq (entry : InnerClass) :
    entry.rename table = entry.mapTexts (.ofTable table) := by
  simp [InnerClass.rename, InnerClass.mapTexts, TextMap.ofTable]

theorem Constant.mapTexts_names (constant : Constant) :
    constant.mapTexts (.all (TextMap.ofTable table).name) = constant :=
  Constant.mapTexts_eq_self constant fun _ _ => rfl

mutual

theorem Attribute.rename_eq (kind : Signature.Kind) : ∀ item : Attribute,
    item.rename table kind = item.mapTexts (.ofTable table) kind
  | .signature _ | .nestHost _ | .bootstrapMethods | .unknown _ _ | .exceptions _ | .nestMembers _
  | .permittedSubclasses _ | .enclosingMethod _ _ => rfl
  | .constantValue constant => by
    have same := Constant.mapTexts_names table constant
    cases constant with
    | string text => rfl
    | _ => exact congrArg _ same.symm
  | .annotations _ entries => by
    simp only [Attribute.rename, Attribute.mapTexts, Annotation.rename_eq]
  | .parameterAnnotations _ parameters => by
    simp only [Attribute.rename, Attribute.mapTexts, Annotation.rename_eq]
  | .typeAnnotations _ entries => by
    simp only [Attribute.rename, Attribute.mapTexts, TypeAnnotation.rename_eq]
  | .annotationDefault value => congrArg _ (ElementValue.rename_eq table value)
  | .record components => congrArg _ (Attribute.renameComponents_eq components)
  | .innerClasses classes => by
    simp only [Attribute.rename, Attribute.mapTexts, funext (InnerClass.rename_eq table)]
  | .code body => congrArg _ (Code.rename_eq table body)

theorem Attribute.renameComponents_eq : ∀ components : List (RecordComponent Attribute),
    Attribute.renameComponents table components =
      Attribute.mapTextsComponents (.ofTable table) components
  | [] => rfl
  | ⟨name, descriptor, attributes⟩ :: rest => by
    simp only [Attribute.renameComponents, Attribute.mapTextsComponents,
      Attribute.renameList_eq .field attributes, Attribute.renameComponents_eq rest]
    rfl

theorem Attribute.renameList_eq (kind : Signature.Kind) : ∀ attributes : List Attribute,
    Attribute.renameList table kind attributes =
      Attribute.mapTextsList (.ofTable table) kind attributes
  | [] => rfl
  | first :: rest => by
    simp only [Attribute.renameList, Attribute.mapTextsList, Attribute.rename_eq kind first,
      Attribute.renameList_eq kind rest]

end

theorem Member.rename_eq (kind : Signature.Kind) (member : Member) :
    member.rename table kind = member.mapTexts (.ofTable table) kind := by
  simp only [Member.rename, Member.mapTexts, Attribute.renameList_eq]
  rfl

theorem ClassModel.rename_eq (model : ClassModel) :
    model.rename table = model.mapTexts (.ofTable table) := by
  simp only [ClassModel.rename, ClassModel.mapTexts, Attribute.renameList_eq,
    funext (Member.rename_eq table _)]
  rfl

end Rename

end ClassRenaming
