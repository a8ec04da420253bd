import ClassRenaming.ClassFile.Reading

/-!
Settling collisions. Names that differed may be equal after renaming, in places where the format
wants each only once. The first stays: of interfaces and exceptions in their order, of annotations
in the order "visible ones first" within one owner, which is a class, field, method, record
component or body of code. An attribute that loses all of its annotations goes away with them.
-/

namespace ClassRenaming

inductive AnnotationKey where
  | declared (descriptor : String)
  | parameter (index : Nat) (descriptor : String)
  | type (targetType : UInt8) (target : TypeTarget) (path : List (UInt8 × UInt8))
      (descriptor : String)
  deriving DecidableEq, Repr

abbrev Keys := List AnnotationKey

def keepNew {α : Type} (key : α → AnnotationKey) : List α → Keys → List α × Keys
  | [], seen => ([], seen)
  | item :: rest, seen =>
    if key item ∈ seen then keepNew key rest seen
    else
      let (kept, seen) := keepNew key rest (key item :: seen)
      (item :: kept, seen)

/-- Keeps new items in every list, where the position of the list is part of the key. -/
def keepNewByIndex {α : Type} (key : Nat → α → AnnotationKey) :
    Nat → List (List α) → Keys → List (List α) × Keys
  | _, [], seen => ([], seen)
  | index, items :: rest, seen =>
    let (kept, seen) := keepNew (key index) items seen
    let (others, seen) := keepNewByIndex key (index + 1) rest seen
    (kept :: others, seen)

def TypeAnnotation.key (item : TypeAnnotation) : AnnotationKey :=
  .type item.targetType item.target item.path item.value.descriptor

namespace CodeAttribute

def keepVisibility (visibility : Visibility) :
    List CodeAttribute → Keys → List CodeAttribute × Keys
  | [], seen => ([], seen)
  | .typeAnnotations found entries :: rest, seen =>
    if found = visibility then
      let (kept, seen) := keepNew TypeAnnotation.key entries seen
      let (others, seen) := keepVisibility visibility rest seen
      (if kept.isEmpty then others else .typeAnnotations found kept :: others, seen)
    else
      let (others, seen) := keepVisibility visibility rest seen
      (.typeAnnotations found entries :: others, seen)
  | other :: rest, seen =>
    let (others, seen) := keepVisibility visibility rest seen
    (other :: others, seen)

def settle (attributes : List CodeAttribute) : List CodeAttribute :=
  let (attributes, seen) := keepVisibility .visible attributes []
  (keepVisibility .invisible attributes seen).1

end CodeAttribute

def Code.settle (code : Code) : Code :=
  { code with attributes := CodeAttribute.settle code.attributes }

namespace Attribute

def keepNew (item : Attribute) (seen : Keys) : Option Attribute × Keys :=
  match item with
  | annotations visibility entries =>
    let (kept, seen) := ClassRenaming.keepNew (fun entry => .declared entry.descriptor) entries seen
    (if kept.isEmpty && !entries.isEmpty then none else some (annotations visibility kept), seen)
  | parameterAnnotations visibility parameters =>
    let (kept, seen) := keepNewByIndex (fun index entry => .parameter index entry.descriptor) 0
      parameters seen
    (some (parameterAnnotations visibility kept), seen)
  | typeAnnotations visibility entries =>
    let (kept, seen) := ClassRenaming.keepNew TypeAnnotation.key entries seen
    if kept.isEmpty && !entries.isEmpty then (none, seen)
    else (some (typeAnnotations visibility kept), seen)
  | other => (some other, seen)

def visibility? : Attribute → Option Visibility
  | annotations visibility _ | parameterAnnotations visibility _ | typeAnnotations visibility _ =>
    some visibility
  | _ => none

def keepVisibility (visibility : Visibility) : List Attribute → Keys → List Attribute × Keys
  | [], seen => ([], seen)
  | first :: rest, seen =>
    if first.visibility? = some visibility then
      let (kept, seen) := first.keepNew seen
      let (others, seen) := keepVisibility visibility rest seen
      (kept.toList ++ others, seen)
    else
      let (others, seen) := keepVisibility visibility rest seen
      (first :: others, seen)

def settleAnnotations (attributes : List Attribute) : List Attribute :=
  let (attributes, seen) := keepVisibility .visible attributes []
  (keepVisibility .invisible attributes seen).1

mutual

def settleInside : Attribute → Attribute
  | exceptions names => exceptions names.eraseDups
  | record components => record (settleComponents components)
  | code body => code body.settle
  | other => other

def settleComponents : List (RecordComponent Attribute) → List (RecordComponent Attribute)
  | [] => []
  | ⟨name, descriptor, attributes⟩ :: rest =>
    ⟨name, descriptor, settleAnnotations (settleEach attributes)⟩ :: settleComponents rest

def settleEach : List Attribute → List Attribute
  | [] => []
  | first :: rest => settleInside first :: settleEach rest

end

def settle (attributes : List Attribute) : List Attribute :=
  settleAnnotations (settleEach attributes)

end Attribute

def Member.settle (member : Member) : Member :=
  { member with attributes := Attribute.settle member.attributes }

def ClassModel.settle (model : ClassModel) : ClassModel :=
  { model with
    interfaces := model.interfaces.eraseDups
    attributes := Attribute.settle model.attributes
    fields := model.fields.map Member.settle
    methods := model.methods.map Member.settle }

end ClassRenaming
