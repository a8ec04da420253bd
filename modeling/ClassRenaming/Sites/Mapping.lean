import ClassRenaming.ClassFile.Reading
import ClassRenaming.Sites.Listing

/-!
A class with every reference site renamed. Nothing is removed here: names that fall together stay
side by side until collisions are settled.
-/

namespace ClassRenaming

variable (table : Renaming)

def MemberRef.rename (member : MemberRef) : MemberRef :=
  { member with owner := table.binary member.owner, descriptor := table.binary member.descriptor }

def MethodHandle.rename (handle : MethodHandle) : MethodHandle :=
  { handle with member := handle.member.rename table }

mutual

def Constant.rename : Constant → Constant
  | .integer value => .integer value
  | .float bits => .float bits
  | .long value => .long value
  | .double bits => .double bits
  | .string text => .string (table.dotted text)
  | .classRef name => .classRef (table.binary name)
  | .methodType descriptor => .methodType (table.binary descriptor)
  | .methodHandle handle => .methodHandle (handle.rename table)
  | .dynamic name descriptor ⟨method, arguments⟩ =>
    .dynamic name (table.binary descriptor)
      ⟨method.rename table, Constant.renameList arguments⟩

def Constant.renameList : List Constant → List Constant
  | [] => []
  | first :: rest => first.rename :: Constant.renameList rest

end

def renameBootstrap (bootstrap : BootstrapMethod) : BootstrapMethod :=
  ⟨bootstrap.method.rename table, Constant.renameList table bootstrap.arguments⟩

mutual

def ElementValue.rename : ElementValue → ElementValue
  | .string text => .string (table.dotted text)
  | .enumConstant descriptor name => .enumConstant (table.binary descriptor) name
  | .classLiteral descriptor => .classLiteral (table.binary descriptor)
  | .nested descriptor elements =>
    .nested (table.binary descriptor) (ElementValue.renameElements elements)
  | .array values => .array (ElementValue.renameList values)
  | .byte value => .byte value
  | .char unit => .char unit
  | .short value => .short value
  | .int value => .int value
  | .long value => .long value
  | .float bits => .float bits
  | .double bits => .double bits
  | .boolean value => .boolean value

def ElementValue.renameElements : List (String × ElementValue) → List (String × ElementValue)
  | [] => []
  | (name, value) :: rest => (name, value.rename) :: ElementValue.renameElements rest

def ElementValue.renameList : List ElementValue → List ElementValue
  | [] => []
  | value :: rest => value.rename :: ElementValue.renameList rest

end

def Annotation.rename (item : Annotation) : Annotation :=
  ⟨table.binary item.descriptor, ElementValue.renameElements table item.elements⟩

def TypeAnnotation.rename (item : TypeAnnotation) : TypeAnnotation :=
  { item with value := item.value.rename table }

def VerificationType.rename : VerificationType → VerificationType
  | .object name => .object (table.binary name)
  | other => other

def Frame.rename (frame : Frame) : Frame :=
  { frame with kind := frame.kind.map (VerificationType.rename table) }

def Instruction.rename : Instruction → Instruction
  | .type opcode name => .type opcode (table.binary name)
  | .multiArray name dimensions => .multiArray (table.binary name) dimensions
  | .field opcode member => .field opcode (member.rename table)
  | .method opcode member isInterface => .method opcode (member.rename table) isInterface
  | .load opcode constant => .load opcode (constant.rename table)
  | .invokeDynamic name descriptor bootstrap =>
    .invokeDynamic name (table.binary descriptor) (renameBootstrap table bootstrap)
  | other => other

def Handler.rename (handler : Handler) : Handler :=
  { handler with catchType := handler.catchType.map table.binary }

def CodeAttribute.rename : CodeAttribute → CodeAttribute
  | .stackMap frames => .stackMap (frames.map (Frame.rename table))
  | .localVariables entries => .localVariables <| entries.map fun entry =>
    { entry with descriptor := table.binary entry.descriptor }
  | .localVariableTypes entries => .localVariableTypes <| entries.map fun entry =>
    { entry with descriptor := table.signature .field entry.descriptor }
  | .typeAnnotations visibility entries =>
    .typeAnnotations visibility (entries.map fun item => item.rename table)
  | .lineNumbers lines => .lineNumbers lines
  | .unknown name info => .unknown name info

def Code.rename (code : Code) : Code :=
  { code with
    instructions := code.instructions.map fun placed =>
      { placed with instruction := placed.instruction.rename table }
    handlers := code.handlers.map (Handler.rename table)
    attributes := code.attributes.map (CodeAttribute.rename table) }

def InnerClass.rename (entry : InnerClass) : InnerClass :=
  { entry with inner := table.binary entry.inner, outer := entry.outer.map table.binary }

mutual

def Attribute.rename (kind : Signature.Kind) : Attribute → Attribute
  | .signature text => .signature (table.signature kind text)
  | .constantValue (.string text) => .constantValue (.string (table.dotted text))
  | .constantValue constant => .constantValue constant
  | .exceptions names => .exceptions (names.map table.binary)
  | .annotations visibility entries =>
    .annotations visibility (entries.map fun item => item.rename table)
  | .parameterAnnotations visibility parameters =>
    .parameterAnnotations visibility
      (parameters.map fun entries => entries.map fun item => item.rename table)
  | .typeAnnotations visibility entries =>
    .typeAnnotations visibility (entries.map fun item => item.rename table)
  | .annotationDefault value => .annotationDefault (value.rename table)
  | .record components => .record (Attribute.renameComponents components)
  | .innerClasses classes => .innerClasses (classes.map (InnerClass.rename table))
  | .enclosingMethod owner method =>
    .enclosingMethod (table.binary owner)
      (method.map fun (name, descriptor) => (name, table.binary descriptor))
  | .nestHost name => .nestHost (table.binary name)
  | .nestMembers names => .nestMembers (names.map table.binary)
  | .permittedSubclasses names => .permittedSubclasses (names.map table.binary)
  | .code body => .code (body.rename table)
  | .bootstrapMethods => .bootstrapMethods
  | .unknown name info => .unknown name info

def Attribute.renameComponents :
    List (RecordComponent Attribute) → List (RecordComponent Attribute)
  | [] => []
  | ⟨name, descriptor, attributes⟩ :: rest =>
    ⟨name, table.binary descriptor, Attribute.renameList .field attributes⟩ ::
      Attribute.renameComponents rest

def Attribute.renameList (kind : Signature.Kind) : List Attribute → List Attribute
  | [] => []
  | first :: rest => first.rename kind :: Attribute.renameList kind rest

end

def Member.rename (kind : Signature.Kind) (member : Member) : Member :=
  { member with
    descriptor := table.binary member.descriptor
    attributes := Attribute.renameList table kind member.attributes }

def ClassModel.rename (model : ClassModel) : ClassModel :=
  { model with
    name := table.binary model.name
    superclass := model.superclass.map table.binary
    interfaces := model.interfaces.map table.binary
    attributes := Attribute.renameList table .type model.attributes
    fields := model.fields.map (Member.rename table .field)
    methods := model.methods.map (Member.rename table .method) }

end ClassRenaming
