import ClassRenaming.ClassFile.Reading
import ClassRenaming.Renaming
import ClassRenaming.Signature.Grammar

/-!
Reference sites: the texts of a class that can name a type, in the order of the model. Names of
members and of annotation elements, names of enum constants, numbers and offsets are no sites. A site
is renamed in binary form or, if it is the text of a string constant, in dotted form. A signature is
renamed name by name as far as its grammar goes; one outside the grammar is renamed as a plain text.
-/

namespace ClassRenaming

inductive Signature.Kind where
  /-- Classes and interfaces. -/
  | type
  | method
  /-- Fields, record components and local variables. -/
  | field
  deriving DecidableEq, Repr, Inhabited

def Signature.mapped? (f : String → String) (text : String) : Signature.Kind → Option String
  | .type => (Signature.class? text.toList).map fun s => (s.mapNamesM (m := Id) f).render
  | .method => (Signature.method? text.toList).map fun s => (s.mapNamesM (m := Id) f).render
  | .field => (Signature.field? text.toList).map fun s => (s.mapNamesM (m := Id) f).render

inductive Site where
  | binary (text : String)
  | dotted (text : String)
  | signature (kind : Signature.Kind) (text : String)
  deriving DecidableEq, Repr, Inhabited

namespace Renaming

/-- The new text of a site that the table changes. A signature in which no source occurs is left
alone without a look at its grammar. -/
def site? (table : Renaming) : Site → Option String
  | .binary text => table.binary? text
  | .dotted text => table.dotted? text
  | .signature kind text =>
    match table.binary? text with
    | none => none
    | some plain =>
      match Signature.mapped? table.binary text kind with
      | none => some plain
      | some printed => if printed = text then none else some printed

def signature (table : Renaming) (kind : Signature.Kind) (text : String) : String :=
  (table.site? (.signature kind text)).getD text

end Renaming

def optionalSite : Option String → List Site
  | some text => [.binary text]
  | none => []

def MemberRef.sites (member : MemberRef) : List Site :=
  [.binary member.owner, .binary member.descriptor]

mutual

def Constant.sites : Constant → List Site
  | .integer _ | .float _ | .long _ | .double _ => []
  | .string text => [.dotted text]
  | .classRef name => [.binary name]
  | .methodType descriptor => [.binary descriptor]
  | .methodHandle handle => handle.member.sites
  | .dynamic _ descriptor ⟨method, arguments⟩ =>
    .binary descriptor :: method.member.sites ++ Constant.listSites arguments

def Constant.listSites : List Constant → List Site
  | [] => []
  | first :: rest => first.sites ++ Constant.listSites rest

end

def bootstrapSites (bootstrap : BootstrapMethod) : List Site :=
  bootstrap.method.member.sites ++ Constant.listSites bootstrap.arguments

mutual

def ElementValue.sites : ElementValue → List Site
  | .byte _ | .char _ | .short _ | .int _ | .long _ | .float _ | .double _ | .boolean _ => []
  | .string text => [.dotted text]
  | .enumConstant descriptor _ => [.binary descriptor]
  | .classLiteral descriptor => [.binary descriptor]
  | .nested descriptor elements => .binary descriptor :: ElementValue.elementSites elements
  | .array values => ElementValue.listSites values

def ElementValue.elementSites : List (String × ElementValue) → List Site
  | [] => []
  | (_, value) :: rest => value.sites ++ ElementValue.elementSites rest

def ElementValue.listSites : List ElementValue → List Site
  | [] => []
  | value :: rest => value.sites ++ ElementValue.listSites rest

end

def Annotation.sites (item : Annotation) : List Site :=
  .binary item.descriptor :: ElementValue.elementSites item.elements

def TypeAnnotation.sites (item : TypeAnnotation) : List Site := item.value.sites

def VerificationType.sites : VerificationType → List Site
  | .object name => [.binary name]
  | _ => []

def Instruction.sites : Instruction → List Site
  | .type _ name | .multiArray name _ => [.binary name]
  | .field _ member | .method _ member _ => member.sites
  | .load _ constant => constant.sites
  | .invokeDynamic _ descriptor bootstrap => .binary descriptor :: bootstrapSites bootstrap
  | _ => []

def CodeAttribute.sites : CodeAttribute → List Site
  | .stackMap frames => frames.flatMap fun frame => frame.kind.types.flatMap VerificationType.sites
  | .localVariables entries => entries.map fun entry => .binary entry.descriptor
  | .localVariableTypes entries => entries.map fun entry => .signature .field entry.descriptor
  | .typeAnnotations _ entries => entries.flatMap TypeAnnotation.sites
  | .lineNumbers _ | .unknown .. => []

def Code.sites (code : Code) : List Site :=
  code.instructions.flatMap (·.instruction.sites) ++
    code.handlers.flatMap (fun handler => optionalSite handler.catchType) ++
    code.attributes.flatMap CodeAttribute.sites

def InnerClass.sites (entry : InnerClass) : List Site :=
  .binary entry.inner :: optionalSite entry.outer

mutual

def Attribute.sites (kind : Signature.Kind) : Attribute → List Site
  | .signature text => [.signature kind text]
  | .constantValue (.string text) => [.dotted text]
  | .constantValue _ => []
  | .exceptions names | .nestMembers names | .permittedSubclasses names => names.map .binary
  | .annotations _ entries => entries.flatMap Annotation.sites
  | .parameterAnnotations _ parameters => parameters.flatten.flatMap Annotation.sites
  | .typeAnnotations _ entries => entries.flatMap TypeAnnotation.sites
  | .annotationDefault value => value.sites
  | .record components => Attribute.componentSites components
  | .innerClasses classes => classes.flatMap InnerClass.sites
  | .enclosingMethod owner method =>
    .binary owner :: (method.toList.map fun (_, descriptor) => .binary descriptor)
  | .nestHost name => [.binary name]
  | .code body => body.sites
  | .bootstrapMethods | .unknown .. => []

def Attribute.componentSites : List (RecordComponent Attribute) → List Site
  | [] => []
  | ⟨_, descriptor, attributes⟩ :: rest =>
    .binary descriptor :: Attribute.listSites .field attributes ++ Attribute.componentSites rest

def Attribute.listSites (kind : Signature.Kind) : List Attribute → List Site
  | [] => []
  | first :: rest => first.sites kind ++ Attribute.listSites kind rest

end

def Member.sites (kind : Signature.Kind) (member : Member) : List Site :=
  .binary member.descriptor :: Attribute.listSites kind member.attributes

def ClassModel.sites (model : ClassModel) : List Site :=
  .binary model.name :: optionalSite model.superclass ++ model.interfaces.map .binary ++
    Attribute.listSites .type model.attributes ++
    model.fields.flatMap (Member.sites .field) ++
    model.methods.flatMap (Member.sites .method)

def ClassModel.siteCount (table : Renaming) (model : ClassModel) : Nat :=
  model.sites.countP fun site => (table.site? site).isSome

end ClassRenaming
