import ClassRenaming.ClassFile.Reading
import ClassRenaming.Code.Writing
import Mathlib.Data.List.Forall2

/-!
What a class comes back as when its bytes are read. It is the same class but for three things that
writing settles: a constant whose index takes two bytes is loaded by the longer opcode, every code
offset is the one that the layout of its body moves it to, and the handle of a field forgets whether
the field was said to be declared in an interface.
-/

namespace ClassRenaming

def MethodHandle.normal (handle : MethodHandle) : MethodHandle :=
  if handle.isField then { handle with isInterface := false } else handle

theorem MethodHandle.member_normal (handle : MethodHandle) :
    handle.normal.member = handle.member := by
  unfold MethodHandle.normal
  split <;> rfl

mutual

def Constant.normal : Constant → Constant
  | .methodHandle handle => .methodHandle handle.normal
  | .dynamic name descriptor ⟨method, arguments⟩ =>
    .dynamic name descriptor ⟨method.normal, Constant.normalList arguments⟩
  | .integer value => .integer value
  | .float bits => .float bits
  | .long value => .long value
  | .double bits => .double bits
  | .string text => .string text
  | .classRef name => .classRef name
  | .methodType descriptor => .methodType descriptor

def Constant.normalList : List Constant → List Constant
  | [] => []
  | first :: rest => first.normal :: Constant.normalList rest

end

def normalBootstrap (bootstrap : BootstrapMethod) : BootstrapMethod :=
  ⟨bootstrap.method.normal, Constant.normalList bootstrap.arguments⟩

/-! Bodies of code, with every offset moved. -/

section Moved

variable (move : Nat → Nat)

def LocalRange.moved (range : LocalRange) : LocalRange :=
  { range with
    start := move range.start
    length := move (range.start + range.length) - move range.start }

def TypeTarget.moved : TypeTarget → TypeTarget
  | .localVariable ranges => .localVariable (ranges.map (LocalRange.moved move))
  | .offset position => .offset (move position)
  | .typeArgument position index => .typeArgument (move position) index
  | other => other

def TypeAnnotation.moved (item : TypeAnnotation) : TypeAnnotation :=
  { item with target := item.target.moved move }

def VerificationType.moved : VerificationType → VerificationType
  | .uninitialized offset => .uninitialized (move offset)
  | other => other

def Frame.moved (frame : Frame) : Frame :=
  ⟨move frame.offset, frame.kind.map (VerificationType.moved move)⟩

def LineNumber.moved (line : LineNumber) : LineNumber := { line with start := move line.start }

def LocalVariable.moved (entry : LocalVariable) : LocalVariable :=
  { entry with
    start := move entry.start
    length := move (entry.start + entry.length) - move entry.start }

def CodeAttribute.moved : CodeAttribute → CodeAttribute
  | .stackMap frames => .stackMap (frames.map (Frame.moved move))
  | .lineNumbers lines => .lineNumbers (lines.map (LineNumber.moved move))
  | .localVariables table => .localVariables (table.map (LocalVariable.moved move))
  | .localVariableTypes table => .localVariableTypes (table.map (LocalVariable.moved move))
  | .typeAnnotations visibility annotations =>
    .typeAnnotations visibility (annotations.map (·.moved move))
  | .unknown name info => .unknown name info

def Handler.moved (handler : Handler) : Handler :=
  { handler with
    start := move handler.start
    stop := move handler.stop
    target := move handler.target }

def Instruction.moved (operand : Option UInt16) : Instruction → Instruction
  | .load opcode constant =>
    .load (if opcode = Opcode.ldc ∧ operand.getD 0 > 255 then Opcode.ldcW else opcode)
      constant.normal
  | .jump opcode target => .jump opcode (move target)
  | .tableSwitch default low high targets =>
    .tableSwitch (move default) low high (targets.map move)
  | .lookupSwitch default pairs =>
    .lookupSwitch (move default) (pairs.map fun (key, target) => (key, move target))
  | .invokeDynamic name descriptor bootstrap =>
    .invokeDynamic name descriptor (normalBootstrap bootstrap)
  | other => other

end Moved

def Instruction.Refers (pool : ConstantPool) (operand : Option UInt16) : Instruction → Prop
  | .load _ constant => ∃ index, operand = some index ∧ pool.constant index = .ok constant.normal
  | .type _ name | .multiArray name _ =>
    ∃ index, operand = some index ∧ pool.className index = .ok name
  | .field _ member => ∃ index, operand = some index ∧ pool.memberRef index = .ok (member, false)
  | .method _ member isInterface =>
    ∃ index, operand = some index ∧ pool.memberRef index = .ok (member, isInterface)
  | .invokeDynamic name descriptor bootstrap =>
    ∃ index, operand = some index ∧
      pool.invokeDynamic index = .ok (name, descriptor, normalBootstrap bootstrap)
  | _ => operand = none

namespace Code

def moved (operands : List (Option UInt16)) (layout : Layout) (code : Code) : Code where
  maxStack := code.maxStack
  maxLocals := code.maxLocals
  instructions := ((code.instructions.zip operands).zip layout.starts).map
    fun ((placed, operand), position) =>
      ⟨position, placed.instruction.moved layout.move operand⟩
  length := layout.length
  handlers := code.handlers.map (Handler.moved layout.move)
  attributes := code.attributes.map (CodeAttribute.moved layout.move)

/-- A body comes back in the layout that the indices of its constants call for. -/
def ComesBack (pool : ConstantPool) (code result : Code) : Prop :=
  ∃ operands layout,
    List.Forall₂ (fun placed operand => placed.instruction.Refers pool operand) code.instructions
      operands ∧
    Layout.compute code operands = .ok layout ∧ result = code.moved operands layout

end Code

/-! Attributes, at every depth, and the class around them. -/

section ComesBack

variable (pool : ConstantPool)

mutual

def Attribute.ComesBack : Attribute → Attribute → Prop
  | .constantValue constant, result => result = .constantValue constant.normal
  | .record components, result =>
    ∃ others, result = .record others ∧ Attribute.ComponentsComeBack components others
  | .code body, result => ∃ other, result = .code other ∧ body.ComesBack pool other
  | item, result => result = item

def Attribute.ComponentsComeBack :
    List (RecordComponent Attribute) → List (RecordComponent Attribute) → Prop
  | [], results => results = []
  | ⟨name, descriptor, attributes⟩ :: rest, results =>
    ∃ others later, results = ⟨name, descriptor, others⟩ :: later ∧
      Attribute.AllComeBack attributes others ∧ Attribute.ComponentsComeBack rest later

def Attribute.AllComeBack : List Attribute → List Attribute → Prop
  | [], results => results = []
  | first :: rest, results =>
    ∃ other later, results = other :: later ∧ first.ComesBack other ∧
      Attribute.AllComeBack rest later

end

structure Member.ComesBack (member result : Member) : Prop where
  access : result.access = member.access
  name : result.name = member.name
  descriptor : result.descriptor = member.descriptor
  attributes : Attribute.AllComeBack pool member.attributes result.attributes

structure ClassModel.ComesBack (model result : ClassModel) : Prop where
  header : result.toClassHeader = model.toClassHeader
  fields : List.Forall₂ (Member.ComesBack pool) model.fields result.fields
  methods : List.Forall₂ (Member.ComesBack pool) model.methods result.methods
  attributes : Attribute.AllComeBack pool model.attributes result.attributes

end ComesBack

end ClassRenaming
