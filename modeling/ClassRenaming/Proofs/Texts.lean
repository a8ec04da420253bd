import ClassRenaming.ClassFile.Reading

/-!
All texts of a class: every name, descriptor, signature and string that its bytes will hold, but for
the names of the attributes that are understood.
-/

namespace ClassRenaming

def MemberRef.texts (member : MemberRef) : List String :=
  [member.owner, member.name, member.descriptor]

def MethodHandle.texts (handle : MethodHandle) : List String := handle.member.texts

mutual

def Constant.texts : Constant → List String
  | .string text | .classRef text | .methodType text => [text]
  | .methodHandle handle => handle.texts
  | .dynamic name descriptor ⟨method, arguments⟩ =>
    name :: descriptor :: method.texts ++ Constant.listTexts arguments
  | .integer _ | .float _ | .long _ | .double _ => []

def Constant.listTexts : List Constant → List String
  | [] => []
  | first :: rest => first.texts ++ Constant.listTexts rest

end

def bootstrapTexts (bootstrap : BootstrapMethod) : List String :=
  bootstrap.method.texts ++ Constant.listTexts bootstrap.arguments

mutual

def ElementValue.texts : ElementValue → List String
  | .string text | .classLiteral text => [text]
  | .enumConstant descriptor name => [descriptor, name]
  | .nested descriptor elements => descriptor :: ElementValue.elementTexts elements
  | .array values => ElementValue.listTexts values
  | .byte _ | .char _ | .short _ | .int _ | .long _ | .float _ | .double _ | .boolean _ => []

def ElementValue.elementTexts : List (String × ElementValue) → List String
  | [] => []
  | (name, value) :: rest => name :: value.texts ++ ElementValue.elementTexts rest

def ElementValue.listTexts : List ElementValue → List String
  | [] => []
  | value :: rest => value.texts ++ ElementValue.listTexts rest

end

def Annotation.texts (item : Annotation) : List String :=
  item.descriptor :: ElementValue.elementTexts item.elements

def TypeAnnotation.texts (item : TypeAnnotation) : List String := item.value.texts

def VerificationType.texts : VerificationType → List String
  | .object name => [name]
  | _ => []

def Frame.texts (frame : Frame) : List String := frame.kind.types.flatMap VerificationType.texts

def Instruction.texts : Instruction → List String
  | .load _ constant => constant.texts
  | .type _ name | .multiArray name _ => [name]
  | .field _ member | .method _ member _ => member.texts
  | .invokeDynamic name descriptor bootstrap => name :: descriptor :: bootstrapTexts bootstrap
  | _ => []

def LocalVariable.texts (entry : LocalVariable) : List String := [entry.name, entry.descriptor]

def CodeAttribute.texts : CodeAttribute → List String
  | .stackMap frames => frames.flatMap Frame.texts
  | .lineNumbers _ => []
  | .localVariables table | .localVariableTypes table => table.flatMap LocalVariable.texts
  | .typeAnnotations _ annotations => annotations.flatMap TypeAnnotation.texts
  | .unknown name _ => [name]

def Code.texts (code : Code) : List String :=
  code.instructions.flatMap (·.instruction.texts) ++ code.handlers.flatMap (·.catchType.toList) ++
    code.attributes.flatMap CodeAttribute.texts

def InnerClass.texts (entry : InnerClass) : List String :=
  entry.inner :: entry.outer.toList ++ entry.name.toList

mutual

def Attribute.texts : Attribute → List String
  | .signature text | .nestHost text => [text]
  | .constantValue constant => constant.texts
  | .exceptions names | .nestMembers names | .permittedSubclasses names => names
  | .annotations _ entries => entries.flatMap Annotation.texts
  | .parameterAnnotations _ parameters => parameters.flatten.flatMap Annotation.texts
  | .typeAnnotations _ entries => entries.flatMap TypeAnnotation.texts
  | .annotationDefault value => value.texts
  | .record components => Attribute.componentTexts components
  | .innerClasses classes => classes.flatMap InnerClass.texts
  | .enclosingMethod owner method =>
    owner :: method.toList.flatMap fun (name, descriptor) => [name, descriptor]
  | .code body => body.texts
  | .bootstrapMethods => []
  | .unknown name _ => [name]

def Attribute.componentTexts : List (RecordComponent Attribute) → List String
  | [] => []
  | ⟨name, descriptor, attributes⟩ :: rest =>
    name :: descriptor :: Attribute.listTexts attributes ++ Attribute.componentTexts rest

def Attribute.listTexts : List Attribute → List String
  | [] => []
  | first :: rest => first.texts ++ Attribute.listTexts rest

end

def Member.texts (member : Member) : List String :=
  member.name :: member.descriptor :: Attribute.listTexts member.attributes

def ClassModel.texts (model : ClassModel) : List String :=
  model.name :: model.superclass.toList ++ model.interfaces ++ model.fields.flatMap Member.texts ++
    model.methods.flatMap Member.texts ++ Attribute.listTexts model.attributes

end ClassRenaming
