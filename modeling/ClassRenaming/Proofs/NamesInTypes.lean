import ClassRenaming.Proofs.DescriptorGrammar
import ClassRenaming.Proofs.TypeOrder
import ClassRenaming.Proofs.TypesInStates
import ClassRenaming.Sites.Listing

/-!
Names that frames get. A property of class names that passes from names to their parts, to arrays
and to declared supertypes holds of every name in the states of a body, if it holds of the names in
the body: executing an instruction and merging states make no other names.
-/

namespace ClassRenaming

/-- The names that frames get whatever the body is. -/
def fixedNames : List String :=
  [objectName, "java/lang/Throwable", "java/lang/String", "java/lang/Class",
    "java/lang/invoke/MethodType", "java/lang/invoke/MethodHandle"]

structure ClosedNames (good : String → Prop) : Prop where
  part : ∀ {part whole : String}, part.toList <:+: whole.toList → good whole → good part
  bracket : ∀ {name : String}, good name → good ("[" ++ name)
  array : ∀ dimensions {name : String}, good name → good (arrayName dimensions name)
  fixed : ∀ name ∈ fixedNames, good name
  base : ∀ base : BaseType, good (String.ofList ['[', base.letter])

theorem ClosedNames.trivial : ClosedNames fun _ => True := by
  constructor <;> intros <;> exact True.intro

theorem ClosedNames.object {good : String → Prop} (closed : ClosedNames good) : good objectName :=
  closed.fixed _ List.mem_cons_self

/-! Types of descriptors. -/

theorem infix_of_methodType {text : String} {type : MethodType}
    (parsed : Descriptor.methodType text = .ok type) :
    (∀ parameter ∈ type.parameters, parameter.chars <:+: text.toList) ∧
      ∀ result ∈ type.result, result.chars <:+: text.toList := by
  rw [(methodType_sound parsed).1, MethodType.chars_eq]
  have behind := (List.suffix_cons '(' (type.parameters.flatMap FieldType.chars ++
    ')' :: type.result.elim ['V'] FieldType.chars)).isInfix
  constructor
  · intro parameter member
    have inside : parameter.chars <:+: type.parameters.flatMap FieldType.chars := by
      rw [List.flatMap_def]
      exact List.infix_of_mem_flatten (List.mem_map_of_mem member)
    exact (inside.trans (List.prefix_append _ _).isInfix).trans behind
  · intro result member
    have same : type.result = some result := member
    rw [same, Option.elim_some]
    have last := (List.suffix_cons ')' result.chars).trans
      (List.suffix_append (type.parameters.flatMap FieldType.chars) (')' :: result.chars))
    exact (last.trans (List.suffix_cons '(' _)).isInfix

/-! States whose names have the property. -/

section Named

variable {good : String → Prop}

def VerificationType.Named (good : String → Prop) : VerificationType → Prop
  | .object name => good name
  | _ => True

def SitesNamed (good : String → Prop) (sites : List Site) : Prop :=
  ∀ text, .binary text ∈ sites → good text

theorem SitesNamed.mono {sites others : List Site} (named : SitesNamed good sites)
    (inside : others ⊆ sites) : SitesNamed good others :=
  fun text member => named text (inside member)

theorem ClosedNames.render (closed : ClosedNames good) {whole : String} (named : good whole)
    {type : FieldType} (inside : type.chars <:+: whole.toList) : good type.render :=
  closed.part (by rwa [FieldType.render, String.toList_ofList]) named

theorem named_ofFieldType (closed : ClosedNames good) {whole : String} (named : good whole)
    {type : FieldType} (inside : type.chars <:+: whole.toList) :
    (VerificationType.ofFieldType type).Named good := by
  cases type with
  | base type => cases type <;> trivial
  | object name =>
    have name_inside : name.toList <:+: (FieldType.object name).chars :=
      ⟨['L'], [';'], by simp [FieldType.chars]⟩
    exact closed.part (name_inside.trans inside) named
  | array component => exact closed.render named inside

theorem named_ofDescriptor (closed : ClosedNames good) {descriptor : String}
    (named : good descriptor) {type : FieldType}
    (parsed : Descriptor.fieldType descriptor = .ok type) :
    (VerificationType.ofFieldType type).Named good := by
  have inside : type.chars <:+: descriptor.toList := ⟨[], [], by simp [chars_of_fieldType parsed]⟩
  exact named_ofFieldType closed named inside

theorem named_ofConstant (closed : ClosedNames good) {constant : Constant}
    (named : SitesNamed good constant.sites) {type : VerificationType}
    (done : VerificationType.ofConstant constant = .ok type) : type.Named good := by
  cases constant with
  | dynamic name descriptor bootstrap =>
    obtain ⟨parsed, found, rfl⟩ := Except.map_eq_ok.1 done
    have text : good descriptor := named descriptor List.mem_cons_self
    exact named_ofDescriptor closed text (liftDescriptor_eq_ok found)
  | integer | float | long | double =>
    cases done
    trivial
  | string | classRef | methodType | methodHandle =>
    cases done
    exact closed.fixed _ (by simp [fixedNames])

theorem named_arrayOf (closed : ClosedNames good) {name : String} (named : good name) :
    (VerificationType.arrayOf name).Named good := by
  unfold VerificationType.arrayOf
  split
  · exact closed.bracket named
  · have same : "[L" ++ name ++ ";" = arrayName 1 name := by
      apply String.toList_inj.1
      simp [arrayName]
    rw [same]
    exact closed.array 1 named

theorem named_baseArray (closed : ClosedNames good) {code : UInt8} {type : VerificationType}
    (done : VerificationType.baseArray code = .ok type) : type.Named good := by
  unfold VerificationType.baseArray at done
  split at done
  case h_9 => cases done
  all_goals cases done
  · exact closed.base .boolean
  · exact closed.base .char
  · exact closed.base .float
  · exact closed.base .double
  · exact closed.base .byte
  · exact closed.base .short
  · exact closed.base .int
  · exact closed.base .long

theorem named_element (closed : ClosedNames good) {array type : VerificationType}
    (named : array.Named good) (done : array.element = .ok type) : type.Named good := by
  unfold VerificationType.element at done
  split at done
  · cases done
    trivial
  · next name =>
    split at done
    · next rest chars =>
      obtain ⟨parsed, found, rfl⟩ := Except.map_eq_ok.1 done
      refine named_ofFieldType closed named ?_
      rw [chars, ← chars_of_fieldType (liftDescriptor_eq_ok found), String.toList_ofList]
      exact (List.suffix_cons '[' rest).isInfix
    · cases done
  · cases done

theorem VerificationType.Plain.named {type : VerificationType} (plain : type.Plain) :
    type.Named good := by
  cases plain <;> trivial

structure FrameState.Named (good : String → Prop) (state : FrameState) : Prop where
  locals : ∀ type ∈ state.locals, type.Named good
  stack : ∀ type ∈ state.stack, type.Named good

structure TypeMetadata.Named (good : String → Prop) (entry : TypeMetadata) : Prop where
  superclass : ∀ name ∈ entry.superclass, good name
  interfaces : ∀ name ∈ entry.interfaces, good name

theorem FrameState.named_iff {state : FrameState} :
    state.Named good ↔ state.Each (VerificationType.Named good) :=
  ⟨fun named => ⟨named.locals, named.stack⟩, fun each => ⟨each.locals, each.stack⟩⟩

namespace FrameState.Named

variable {state after : FrameState} {type : VerificationType}

theorem each (named : state.Named good) : state.Each (VerificationType.Named good) :=
  named_iff.1 named

theorem push (named : state.Named good) (here : type.Named good) : (state.push type).Named good :=
  named_iff.2 (named.each.push trivial here)

theorem pop (named : state.Named good) (done : state.pop = .ok (type, after)) :
    type.Named good ∧ after.Named good := by
  obtain ⟨here, rest⟩ := named.each.pop done
  exact ⟨here, named_iff.2 rest⟩

theorem drop (named : state.Named good) {count : Nat} (done : state.drop count = .ok after) :
    after.Named good :=
  named_iff.2 (named.each.drop done)

theorem rearrange (named : state.Named good) {depth : Nat} {order : List Nat}
    (done : state.rearrange depth order = .ok after) : after.Named good :=
  named_iff.2 (named.each.rearrange trivial done)

theorem reserve (named : state.Named good) (length : Nat) : (state.reserve length).Named good :=
  named_iff.2 (named.each.reserve trivial length)

theorem setLocal (named : state.Named good) (here : type.Named good) (index : Nat) :
    (state.setLocal index type).Named good :=
  named_iff.2 (named.each.setLocal trivial here index)

theorem construct (named : state.Named good) {before now : VerificationType}
    (here : now.Named good) : (state.construct before now).Named good :=
  named_iff.2 (named.each.construct here)

variable {owner : String} {made : Nat → Option String} {placed : Placed}

theorem makes (closed : ClosedNames good) (own : good owner)
    (makes : ∀ offset name, made offset = some name → good name)
    (sites : SitesNamed good placed.instruction.sites) (new : placed.Makes owner made type) :
    type.Named good := by
  obtain ⟨offset, instruction⟩ := placed
  have named_result {text : String} (fits : good text) {method : MethodType} {result : FieldType}
      (parsed : Descriptor.methodType text = .ok method) (given : method.result = some result) :
      (VerificationType.ofFieldType result).Named good :=
    named_ofFieldType closed fits ((infix_of_methodType parsed).2 result given)
  cases new with
  | plain plain => exact plain.named
  | new here => trivial
  | this => exact own
  | constructed new => exact makes _ _ new
  | constant here known =>
    cases here
    exact named_ofConstant closed sites known
  | array here =>
    cases here
    exact named_arrayOf closed (sites _ List.mem_cons_self)
  | cast here | multiArray here =>
    cases here
    exact sites _ List.mem_cons_self
  | field here parsed =>
    cases here
    exact named_ofDescriptor closed (sites _ (by simp [Instruction.sites, MemberRef.sites])) parsed
  | call here parsed given =>
    cases here
    exact named_result (sites _ (by simp [Instruction.sites, MemberRef.sites])) parsed given
  | dynamic here parsed given =>
    cases here
    exact named_result (sites _ List.mem_cons_self) parsed given
  | baseArray here known => exact named_baseArray closed known

theorem execute (closed : ClosedNames good) (named : state.Named good) (own : good owner)
    (constructed : ∀ offset name, made offset = some name → good name)
    (sites : SitesNamed good placed.instruction.sites)
    (done : state.execute owner made placed = .ok after) : after.Named good := by
  have elements (array type : VerificationType) (here : array.Named good)
      (found : array.element = .ok type) : type.Named good := named_element closed here found
  exact named_iff.2 (named.each.execute elements (fun _ => makes closed own constructed sites) done)

end FrameState.Named

theorem FrameState.named_onEntry (closed : ClosedNames good) {owner : String} (own : good owner)
    {member : Member} (descriptor : good member.descriptor) {entry : FrameState}
    (done : FrameState.onEntry owner member = .ok entry) : entry.Named good := by
  refine named_iff.2 (.onEntry trivial ?_ (fun type parsed parameter listed => ?_) done)
  · unfold FrameState.receiver
    split
    · trivial
    · exact own
  · exact named_ofFieldType closed descriptor ((infix_of_methodType parsed).1 parameter listed)

section Merging

variable {hierarchy : Hierarchy} {table : String → TypeMetadata}

def VerificationType.Held (good : String → Prop) : VerificationType → Prop
  | .top => True
  | .object name => good name
  | _ => False

theorem infix_arrayName (dimensions : Nat) (name : String) :
    name.toList <:+: (arrayName dimensions name).toList := by
  unfold arrayName
  split
  · exact List.infix_rfl
  · refine ⟨List.replicate dimensions '[' ++ ['L'], [';'], ?_⟩
    simp

theorem Below.held (closed : ClosedNames good) (entries : ∀ name, (table name).Named good)
    {a b : VerificationType} (below : Below table a b) : a.Held good → b.Held good := by
  induction below with
  | refl type => exact id
  | trans _ _ first second => exact fun held => second (first held)
  | top type => exact fun _ => trivial
  | null name => exact False.elim
  | root name => exact fun _ => closed.object
  | declared above =>
    intro _
    rcases above with super | interface
    · exact (entries _).superclass _ super
    · exact (entries _).interfaces _ interface
  | element _ _ ih =>
    intro held
    exact closed.array _ (ih (closed.part (infix_arrayName _ _) held))
  | lower _ _ => exact fun _ => closed.array _ closed.object

variable (closed : ClosedNames good) (entries : ∀ name, (table name).Named good)
include closed entries

theorem ensures_mergeTypes_named {a b : VerificationType} (left : a.Named good)
    (right : b.Named good) :
    Ensures hierarchy table (hierarchy.mergeTypes a b) (VerificationType.Named good) := by
  unfold Hierarchy.mergeTypes
  split
  · exact .pure left
  · split
    · exact .pure right
    · exact .pure left
    · next x y _ =>
      refine .bind (ensures_mergeReferences x y) fun result bound => .pure ?_
      exact bound.1.held closed entries left
    · exact .pure trivial

end Merging

end Named

end ClassRenaming
