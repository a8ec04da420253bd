import ClassRenaming.Attributes
import ClassRenaming.ClassFile.Reading
import ClassRenaming.Code.Writing

/-!
Writing a class file. The pool grows while the class is written behind it. The name of an attribute
gets its index after everything in its body, and a table is refused for its length before any of its
items is written. The bootstrap method table is written after everything that may add to it, in the
place the class has for it.
-/

namespace ClassRenaming

open Bytes

def className? : Option String → Interning UInt16
  | some name => Interning.className name
  | none => pure 0

def InnerClass.write (entry : InnerClass) : Interning Bytes := do
  let inner ← Interning.className entry.inner
  let outer ← className? entry.outer
  let name ← match entry.name with
    | some name => Interning.utf8 name
    | none => pure 0
  return u2 inner ++ u2 outer ++ u2 name ++ u2 entry.access

def writeClassName (name : String) : Interning Bytes := do
  return u2 (← Interning.className name)

namespace Attribute

def name : Attribute → String
  | signature _ => "Signature"
  | constantValue _ => "ConstantValue"
  | exceptions _ => "Exceptions"
  | annotations visibility _ => visibility.annotationsName
  | parameterAnnotations visibility _ => visibility.parameterAnnotationsName
  | typeAnnotations visibility _ => visibility.typeAnnotationsName
  | annotationDefault _ => "AnnotationDefault"
  | record _ => "Record"
  | innerClasses _ => "InnerClasses"
  | enclosingMethod .. => "EnclosingMethod"
  | nestHost _ => "NestHost"
  | nestMembers _ => "NestMembers"
  | permittedSubclasses _ => "PermittedSubclasses"
  | code _ => "Code"
  | bootstrapMethods => "BootstrapMethods"
  | unknown name _ => name

mutual

def writeBody : Attribute → Interning Bytes
  | signature text => do return u2 (← Interning.utf8 text)
  | constantValue constant => do return u2 (← Interning.constant constant)
  | exceptions names | nestMembers names | permittedSubclasses names =>
    writeTable writeClassName names
  | annotations _ entries => Annotation.writeTable entries
  | parameterAnnotations _ parameters => do
    if parameters.length > 255 then throw (.malformed "parameter annotations")
    let bodies ← parameters.mapM Annotation.writeTable
    return parameters.length.toUInt8 :: bodies.flatten
  | typeAnnotations _ entries => TypeAnnotation.writeTable id entries
  | annotationDefault value => value.write
  | record components => do
    let count ← tableCount components.length
    return count ++ (← writeComponents components)
  | innerClasses classes => writeTable InnerClass.write classes
  | enclosingMethod owner method => do
    let owner ← Interning.className owner
    let method ← match method with
      | some (name, descriptor) => Interning.nameAndType name descriptor
      | none => pure 0
    return u2 owner ++ u2 method
  | nestHost name => writeClassName name
  | code body => body.write
  | bootstrapMethods => throw .misplacedBootstrap
  | unknown _ info => return info

def writeComponents : List (RecordComponent Attribute) → Interning Bytes
  | [] => pure []
  | ⟨name, descriptor, attributes⟩ :: rest => do
    let name ← Interning.utf8 name
    let descriptor ← Interning.utf8 descriptor
    let count ← tableCount attributes.length
    let attributes ← writeList attributes
    let rest ← writeComponents rest
    return u2 name ++ u2 descriptor ++ count ++ attributes ++ rest

def writeList : List Attribute → Interning Bytes
  | [] => pure []
  | first :: rest => do
    let info ← writeBody first
    let name ← Interning.utf8 first.name
    let bytes ← attributeBytes name info
    let rest ← writeList rest
    return bytes ++ rest

end

def writeAll (attributes : List Attribute) : Interning Bytes := do
  let count ← tableCount attributes.length
  return count ++ (← writeList attributes)

end Attribute

def Member.write (member : Member) : Interning Bytes := do
  let name ← Interning.utf8 member.name
  let descriptor ← Interning.utf8 member.descriptor
  let attributes ← Attribute.writeAll member.attributes
  return u2 member.access ++ u2 name ++ u2 descriptor ++ attributes

def BootstrapEntry.write (row : BootstrapEntry) : Except FormatError Bytes := do
  return u2 row.method ++ (← tableCount row.arguments.length) ++ row.arguments.flatMap u2

def writeBootstrap (rows : List BootstrapEntry) : Except FormatError Bytes := do
  return (← tableCount rows.length) ++ (← rows.mapM BootstrapEntry.write).flatten

/-- A class attribute with the index of its name; the bootstrap method table is still missing. -/
def writeClassAttribute : Attribute → Interning (Option (UInt16 × Bytes))
  | .bootstrapMethods => return none
  | other => do
    let info ← other.writeBody
    let name ← Interning.utf8 other.name
    return some (name, info)

/-- The class attributes, with a bootstrap method table at its place, or at the end if there is no
place but a row. -/
def writeClassAttributes (attributes : List Attribute) : Interning Bytes := do
  let written ← attributes.mapM writeClassAttribute
  let rows := (← get).bootstrap.toList
  let written := if written.all Option.isSome && !rows.isEmpty then written ++ [none] else written
  let filled ←
    if written.all Option.isSome then pure (written.filterMap id)
    else
      let name ← Interning.utf8 "BootstrapMethods"
      let info ← writeBootstrap rows
      pure (written.map (·.getD (name, info)))
  let count ← tableCount filled.length
  return count ++ (← filled.mapM fun (name, info) => attributeBytes name info).flatten

def ClassModel.write (model : ClassModel) : Interning Bytes := do
  let name ← Interning.className model.name
  let superclass ← className? model.superclass
  let interfaces ← writeTable writeClassName model.interfaces
  let fields ← writeTable Member.write model.fields
  let methods ← writeTable Member.write model.methods
  let attributes ← writeClassAttributes model.attributes
  return u2 model.access ++ u2 name ++ u2 superclass ++ interfaces ++ fields ++ methods ++
    attributes

/-- The class behind its pool, in which every index from the input is still good. -/
def ClassFile.toBytes (file : ClassFile) : Except FormatError Bytes := do
  let (body, pool) ← file.model.write.run file.pool
  return u4 magic ++ u2 file.model.minor ++ u2 file.model.major ++ pool.encode ++ body

end ClassRenaming
