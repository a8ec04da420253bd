import ClassRenaming.ConstantPool.Interning

/-!
Annotations, their values, and annotations on types. Values nest to any depth; a value starts with a
tag, so the bytes at hand bound how deep it can go. The target of a type annotation may hold code
offsets, which move with the code.
-/

namespace ClassRenaming

inductive ElementValue where
  | byte (value : Int8)
  | char (unit : UInt16)
  | short (value : Int16)
  | int (value : Int32)
  | long (value : Int64)
  | float (bits : UInt32)
  | double (bits : UInt64)
  | boolean (value : Bool)
  | string (text : String)
  | enumConstant (descriptor name : String)
  | classLiteral (descriptor : String)
  | nested (descriptor : String) (elements : List (String × ElementValue))
  | array (values : List ElementValue)
  deriving Inhabited

structure Annotation where
  descriptor : String
  elements : List (String × ElementValue)
  deriving Inhabited

structure LocalRange where
  start : Nat
  length : Nat
  index : UInt16
  deriving DecidableEq, Repr, Inhabited

inductive TypeTarget where
  | typeParameter (index : UInt8)
  | supertype (index : UInt16)
  | typeParameterBound (parameter bound : UInt8)
  | empty
  | formalParameter (index : UInt8)
  | throws (index : UInt16)
  | localVariable (ranges : List LocalRange)
  | catch (handler : UInt16)
  | offset (position : Nat)
  | typeArgument (position : Nat) (index : UInt8)
  deriving DecidableEq, Repr, Inhabited

structure TypeAnnotation where
  targetType : UInt8
  target : TypeTarget
  /-- Steps into nested types: the kind of step and a type argument index. -/
  path : List (UInt8 × UInt8)
  value : Annotation
  deriving Inhabited

inductive Visibility where
  | visible | invisible
  deriving DecidableEq, Repr, Inhabited

section Reading

open Reader

def ElementValue.read (pool : ConstantPool) : Nat → Reader ElementValue
  | 0 => throw .unexpectedEnd
  | depth + 1 => do
    match Char.ofNat (← u1).toNat with
    | 'B' => return .byte (← pool.integer (← u2)).toInt8
    | 'C' => return .char (← pool.integer (← u2)).toUInt32.toUInt16
    | 'I' => return .int (← pool.integer (← u2))
    | 'S' => return .short (← pool.integer (← u2)).toInt16
    | 'Z' => return .boolean ((← pool.integer (← u2)) != 0)
    | 'D' => return .double (← pool.double (← u2))
    | 'F' => return .float (← pool.float (← u2))
    | 'J' => return .long (← pool.long (← u2))
    | 's' => return .string (← pool.takeUtf8)
    | 'e' =>
      let descriptor ← u2
      let name ← u2
      return .enumConstant (← pool.utf8 descriptor) (← pool.utf8 name)
    | 'c' => return .classLiteral (← pool.takeUtf8)
    | '@' =>
      let descriptor ← pool.takeUtf8
      let elements ← table do return (← pool.takeUtf8, ← ElementValue.read pool depth)
      return .nested descriptor elements
    | '[' => return .array (← table (ElementValue.read pool depth))
    | _ => throw (.malformed "annotation element_value")

def Annotation.read (pool : ConstantPool) (depth : Nat) : Reader Annotation := do
  let descriptor ← pool.takeUtf8
  let elements ← table do return (← pool.takeUtf8, ← ElementValue.read pool depth)
  return ⟨descriptor, elements⟩

/-- Every level of nesting takes a byte, so the bytes at hand are depth enough. -/
def Annotation.readTable (pool : ConstantPool) : Reader (List Annotation) := fun bytes =>
  let item := Annotation.read pool bytes.length
  table item bytes

def LocalRange.read : Reader LocalRange := do
  return ⟨(← u2).toNat, (← u2).toNat, ← u2⟩

def TypeTarget.read (targetType : UInt8) : Reader TypeTarget :=
  if targetType ≤ 0x01 then return .typeParameter (← u1)
  else if targetType = 0x10 then return .supertype (← u2)
  else if targetType = 0x11 ∨ targetType = 0x12 then return .typeParameterBound (← u1) (← u1)
  else if 0x13 ≤ targetType ∧ targetType ≤ 0x15 then return .empty
  else if targetType = 0x16 then return .formalParameter (← u1)
  else if targetType = 0x17 then return .throws (← u2)
  else if targetType = 0x40 ∨ targetType = 0x41 then return .localVariable (← table LocalRange.read)
  else if targetType = 0x42 then return .catch (← u2)
  else if 0x43 ≤ targetType ∧ targetType ≤ 0x46 then return .offset (← u2).toNat
  else if 0x47 ≤ targetType ∧ targetType ≤ 0x4B then return .typeArgument (← u2).toNat (← u1)
  else throw (.malformed "type annotation target")

def TypeAnnotation.read (pool : ConstantPool) (depth : Nat) : Reader TypeAnnotation := do
  let targetType ← u1
  let target ← TypeTarget.read targetType
  let path ← many (← u1).toNat do return (← u1, ← u1)
  let value ← Annotation.read pool depth
  return { targetType, target, path, value }

def TypeAnnotation.readTable (pool : ConstantPool) : Reader (List TypeAnnotation) := fun bytes =>
  let item := TypeAnnotation.read pool bytes.length
  table item bytes

end Reading

section Writing

open Bytes

mutual

def ElementValue.write : ElementValue → Interning Bytes
  | .byte value => tagged 'B' (.integer value.toInt32)
  | .char unit => tagged 'C' (.integer unit.toUInt32.toInt32)
  | .short value => tagged 'S' (.integer value.toInt32)
  | .int value => tagged 'I' (.integer value)
  | .boolean value => tagged 'Z' (.integer (if value then 1 else 0))
  | .long value => tagged 'J' (.long value)
  | .float bits => tagged 'F' (.float bits)
  | .double bits => tagged 'D' (.double bits)
  | .string text => do return letter 's' :: u2 (← Interning.utf8 text)
  | .enumConstant descriptor name => do
    let descriptor ← Interning.utf8 descriptor
    let name ← Interning.utf8 name
    return letter 'e' :: u2 descriptor ++ u2 name
  | .classLiteral descriptor => do return letter 'c' :: u2 (← Interning.utf8 descriptor)
  | .nested descriptor elements => do
    let descriptor ← Interning.utf8 descriptor
    let count ← tableCount elements.length
    let elements ← ElementValue.writeElements elements
    return letter '@' :: u2 descriptor ++ count ++ elements
  | .array values => do
    let count ← tableCount values.length
    let values ← ElementValue.writeValues values
    return letter '[' :: count ++ values
where
  letter (c : Char) : UInt8 := c.toNat.toUInt8
  tagged (tag : Char) (constant : PoolEntry) : Interning Bytes := do
    return letter tag :: u2 (← Interning.entry constant)

def ElementValue.writeElements : List (String × ElementValue) → Interning Bytes
  | [] => pure []
  | (name, value) :: rest => do
    let name ← Interning.utf8 name
    let value ← value.write
    let rest ← ElementValue.writeElements rest
    return u2 name ++ value ++ rest

def ElementValue.writeValues : List ElementValue → Interning Bytes
  | [] => pure []
  | value :: rest => do
    let value ← value.write
    let rest ← ElementValue.writeValues rest
    return value ++ rest

end

def Annotation.write (item : Annotation) : Interning Bytes := do
  let descriptor ← Interning.utf8 item.descriptor
  let count ← tableCount item.elements.length
  let elements ← ElementValue.writeElements item.elements
  return u2 descriptor ++ count ++ elements

def Annotation.writeTable (annotations : List Annotation) : Interning Bytes := do
  let count ← tableCount annotations.length
  return count ++ (← annotations.mapM Annotation.write).flatten

def codeOffset (offset : Nat) : Except FormatError Bytes :=
  if offset < 65536 then .ok (u2 offset.toUInt16) else .error (.codeTooLarge offset)

def LocalRange.write (move : Nat → Nat) (range : LocalRange) : Except FormatError Bytes := do
  let start := move range.start
  let stop := move (range.start + range.length)
  return (← codeOffset start) ++ (← codeOffset (stop - start)) ++ u2 range.index

def TypeTarget.write (move : Nat → Nat) : TypeTarget → Except FormatError Bytes
  | .typeParameter index | .formalParameter index => return u1 index
  | .supertype index | .throws index => return u2 index
  | .typeParameterBound parameter bound => return u1 parameter ++ u1 bound
  | .empty => return []
  | .localVariable ranges => do
    let count ← tableCount ranges.length
    return count ++ (← ranges.mapM (LocalRange.write move)).flatten
  | .catch handler => return u2 handler
  | .offset position => codeOffset (move position)
  | .typeArgument position index => return (← codeOffset (move position)) ++ u1 index

def TypeAnnotation.write (move : Nat → Nat) (item : TypeAnnotation) : Interning Bytes := do
  let target ← item.target.write move
  if item.path.length > 255 then throw (.malformed "type_path")
  let path := item.path.flatMap fun (kind, index) => [kind, index]
  let value ← item.value.write
  return item.targetType :: target ++ u1 item.path.length.toUInt8 ++ path ++ value

def TypeAnnotation.writeTable (move : Nat → Nat) (annotations : List TypeAnnotation) :
    Interning Bytes := do
  let count ← tableCount annotations.length
  return count ++ (← annotations.mapM fun item => item.write move).flatten

end Writing

end ClassRenaming
