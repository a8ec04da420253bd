import ClassRenaming.Code.Basic
import ClassRenaming.Code.Reading

/-!
Attributes of classes, fields, methods and record components, and how they are read by their names.
An attribute of a name not listed here keeps its bytes. Bytes left over make an attribute malformed;
a body of code says so itself.
-/

namespace ClassRenaming

structure RecordComponent (α : Type) where
  name : String
  descriptor : String
  attributes : List α
  deriving Inhabited

structure InnerClass where
  inner : String
  outer : Option String
  name : Option String
  access : UInt16
  deriving DecidableEq, Repr, Inhabited

inductive Attribute where
  | signature (text : String)
  | constantValue (constant : Constant)
  | exceptions (names : List String)
  | annotations (visibility : Visibility) (annotations : List Annotation)
  /-- One list of annotations for each parameter. -/
  | parameterAnnotations (visibility : Visibility) (parameters : List (List Annotation))
  | typeAnnotations (visibility : Visibility) (annotations : List TypeAnnotation)
  | annotationDefault (value : ElementValue)
  | record (components : List (RecordComponent Attribute))
  | innerClasses (classes : List InnerClass)
  /-- The class around this one, with the name and descriptor of the method around it. -/
  | enclosingMethod (owner : String) (method : Option (String × String))
  | nestHost (name : String)
  | nestMembers (names : List String)
  | permittedSubclasses (names : List String)
  | code (body : Code)
  /-- The place of the bootstrap method table, whose rows belong to the constant pool. -/
  | bootstrapMethods
  | unknown (name : String) (info : Bytes)
  deriving Inhabited

structure Member where
  access : UInt16
  name : String
  descriptor : String
  attributes : List Attribute
  deriving Inhabited

namespace Member

def isStatic (member : Member) : Bool := member.access &&& 0x0008 != 0

def code? (member : Member) : Option Code :=
  member.attributes.findSome? fun
    | .code body => some body
    | _ => none

end Member

def Attribute.modifyCode (f : Code → Code) : List Attribute → List Attribute
  | [] => []
  | .code body :: rest => .code (f body) :: rest
  | other :: rest => other :: Attribute.modifyCode f rest

open Reader

/-- What an attribute with bytes left over is called; all annotation attributes share a name. -/
def Attribute.partName (name : String) : String :=
  if ["Signature", "ConstantValue", "Exceptions", "Record", "InnerClasses", "EnclosingMethod",
      "NestHost", "NestMembers", "PermittedSubclasses", "AnnotationDefault"].contains name then name
  else "annotation"

def InnerClass.read (pool : ConstantPool) : Reader InnerClass := do
  let inner ← pool.takeClassName
  let outer ← pool.takeClassName?
  let name ← pool.takeUtf8?
  return { inner, outer, name, access := ← u2 }

def ElementValue.readWhole (pool : ConstantPool) : Reader ElementValue := fun bytes =>
  ElementValue.read pool (bytes.length + 1) bytes

def takeNameAndType? (pool : ConstantPool) : Reader (Option (String × String)) := do
  let index ← u2
  if index = 0 then return none else return some (← pool.nameAndType index)

def Attribute.read (pool : ConstantPool) : Nat → String → Bytes → Except FormatError Attribute
  | 0, _, _ => .error .unexpectedEnd
  | depth + 1, name, info =>
    let whole {α : Type} (reader : Reader α) : Except FormatError α :=
      reader.all info fun _ => .malformed (Attribute.partName name)
    let annotations := Annotation.readTable pool
    let typeAnnotations := TypeAnnotation.readTable pool
    let parameters : Reader (List (List Annotation)) := do many (← u1).toNat annotations
    match name with
    | "Signature" => .signature <$> whole pool.takeUtf8
    | "ConstantValue" => .constantValue <$> whole do pool.constant (← u2)
    | "Exceptions" => .exceptions <$> whole (table pool.takeClassName)
    | "RuntimeVisibleAnnotations" => .annotations .visible <$> whole annotations
    | "RuntimeInvisibleAnnotations" => .annotations .invisible <$> whole annotations
    | "RuntimeVisibleParameterAnnotations" => .parameterAnnotations .visible <$> whole parameters
    | "RuntimeInvisibleParameterAnnotations" =>
      .parameterAnnotations .invisible <$> whole parameters
    | "RuntimeVisibleTypeAnnotations" => .typeAnnotations .visible <$> whole typeAnnotations
    | "RuntimeInvisibleTypeAnnotations" => .typeAnnotations .invisible <$> whole typeAnnotations
    | "AnnotationDefault" => .annotationDefault <$> whole (ElementValue.readWhole pool)
    | "Record" => .record <$> whole do table do
      let name ← pool.takeUtf8
      let descriptor ← pool.takeUtf8
      let attributes ← table do
        let (name, info) ← takeAttribute pool
        Attribute.read pool depth name info
      return { name, descriptor, attributes }
    | "InnerClasses" => .innerClasses <$> whole (table (InnerClass.read pool))
    | "EnclosingMethod" => whole do
      return .enclosingMethod (← pool.takeClassName) (← takeNameAndType? pool)
    | "NestHost" => .nestHost <$> whole pool.takeClassName
    | "NestMembers" => .nestMembers <$> whole (table pool.takeClassName)
    | "PermittedSubclasses" => .permittedSubclasses <$> whole (table pool.takeClassName)
    | "Code" => .code <$> Code.read pool info
    | "BootstrapMethods" => .ok .bootstrapMethods
    | _ => .ok (.unknown name info)

end ClassRenaming
