import ClassRenaming.Annotations
import ClassRenaming.Descriptor
import ClassRenaming.Opcode

/-!
Instructions with symbolic operands. A branch target is an offset in the code the instruction was
read from. The bytes of an instruction depend on where it stands only through the padding of a
switch, and, when it is written, on whether the index of a loaded constant fits into one byte.
-/

namespace ClassRenaming

inductive Instruction where
  /-- An opcode without operands. -/
  | simple (opcode : UInt8)
  | push (opcode : UInt8) (value : Int16)
  | load (opcode : UInt8) (constant : Constant)
  /-- A local variable by index, and the return from a subroutine. -/
  | local (opcode : UInt8) (index : UInt16) (wide : Bool)
  | increment (index : UInt16) (delta : Int16) (wide : Bool)
  | jump (opcode : UInt8) (target : Nat)
  | tableSwitch (default : Nat) (low high : Int32) (targets : List Nat)
  | lookupSwitch (default : Nat) (pairs : List (Int32 × Nat))
  | type (opcode : UInt8) (name : String)
  | field (opcode : UInt8) (member : MemberRef)
  | method (opcode : UInt8) (member : MemberRef) (isInterface : Bool)
  | invokeDynamic (name descriptor : String) (bootstrap : BootstrapMethod)
  | newArray (elementType : UInt8)
  | multiArray (name : String) (dimensions : UInt8)
  deriving Inhabited

namespace Instruction

def opcode : Instruction → UInt8
  | simple opcode | push opcode _ | load opcode _ | .local opcode _ _ | jump opcode _
  | type opcode _ | field opcode _ | method opcode _ _ => opcode
  | increment .. => Opcode.iinc
  | tableSwitch .. => Opcode.tableswitch
  | lookupSwitch .. => Opcode.lookupswitch
  | invokeDynamic .. => Opcode.invokedynamic
  | newArray _ => Opcode.newarray
  | multiArray .. => Opcode.multianewarray

def branchTargets : Instruction → List Nat
  | jump _ target => [target]
  | tableSwitch default _ _ targets => default :: targets
  | lookupSwitch default pairs => default :: pairs.map (·.2)
  | _ => []

def endsBlock : Instruction → Bool
  | simple opcode =>
    (Opcode.ireturn ≤ opcode && opcode ≤ Opcode.voidReturn) || opcode == Opcode.athrow
  | jump opcode _ => opcode == Opcode.goto || opcode == Opcode.gotoW
  | .local opcode _ _ => opcode == Opcode.ret
  | tableSwitch .. | lookupSwitch .. => true
  | _ => false

def isSubroutine : Instruction → Bool
  | jump opcode _ => opcode == Opcode.jsr || opcode == Opcode.jsrW
  | .local opcode _ _ => opcode == Opcode.ret
  | _ => false

def padding (offset : Nat) : Nat := (4 - (offset + 1) % 4) % 4

def size (offset : Nat) : Instruction → Nat
  | simple _ => 1
  | push opcode _ => if opcode = Opcode.bipush then 2 else 3
  | load opcode _ => if opcode = Opcode.ldc then 2 else 3
  | .local _ _ wide => if wide then 4 else 2
  | increment _ _ wide => if wide then 6 else 3
  | jump opcode _ => if opcode = Opcode.gotoW ∨ opcode = Opcode.jsrW then 5 else 3
  | tableSwitch _ _ _ targets => 1 + padding offset + 12 + 4 * targets.length
  | lookupSwitch _ pairs => 1 + padding offset + 8 + 8 * pairs.length
  | type .. | field .. => 3
  | method opcode _ _ => if opcode = Opcode.invokeinterface then 5 else 3
  | invokeDynamic .. => 5
  | newArray _ => 2
  | multiArray .. => 4

open Reader

def readTarget (length offset : Nat) (far : Bool) : Reader Nat := do
  let delta : Int ← if far then pure (← u4).toInt32.toInt else pure (← u2).toInt16.toInt
  let target : Int := offset + delta
  if target < 0 ∨ (length : Int) ≤ target then throw (.invalidCodeOffset offset target)
  return target.toNat

def remaining : Reader Nat := fun bytes => .ok (bytes.length, bytes)

def readTableSwitch (length offset : Nat) : Reader Instruction := do
  discard <| take (padding offset)
  let default ← readTarget length offset true
  let low := (← u4).toInt32
  let high := (← u4).toInt32
  if high < low then throw (.malformed "Code tableswitch")
  let count := (high.toInt - low.toInt + 1).toNat
  if count > (← remaining) / 4 then throw .unexpectedEnd
  return .tableSwitch default low high (← many count (readTarget length offset true))

def readLookupSwitch (length offset : Nat) : Reader Instruction := do
  discard <| take (padding offset)
  let default ← readTarget length offset true
  let count := (← u4).toInt32.toInt
  if count < 0 ∨ count > (← remaining) / 8 then throw (.malformed "Code lookupswitch")
  let pairs ← many count.toNat do
    return ((← u4).toInt32, ← readTarget length offset true)
  return .lookupSwitch default pairs

def readWide (offset : Nat) : Reader Instruction := do
  let opcode ← u1
  match Opcode.format opcode with
  | some .local => return .local opcode (← u2) true
  | some .increment => return .increment (← u2) (← u2).toInt16 true
  | _ => throw (.invalidOpcode offset opcode)

def read (pool : ConstantPool) (length offset : Nat) : Reader Instruction := do
  let opcode ← u1
  match Opcode.format opcode with
  | none => throw (.invalidOpcode offset opcode)
  | some .none => return .simple opcode
  | some .byte => return .push opcode (← u1).toInt8.toInt16
  | some .short => return .push opcode (← u2).toInt16
  | some .narrowConstant => return .load opcode (← pool.constant (← u1).toUInt16)
  | some .wideConstant => return .load opcode (← pool.constant (← u2))
  | some .local => return .local opcode (← u1).toUInt16 false
  | some .increment => return .increment (← u1).toUInt16 (← u1).toInt8.toInt16 false
  | some .branch => return .jump opcode (← readTarget length offset false)
  | some .farBranch => return .jump opcode (← readTarget length offset true)
  | some .tableSwitch => readTableSwitch length offset
  | some .lookupSwitch => readLookupSwitch length offset
  | some .field => return .field opcode (← pool.memberRef (← u2)).1
  | some .method =>
    let (member, isInterface) ← pool.memberRef (← u2)
    return .method opcode member isInterface
  | some .interfaceMethod =>
    let (member, _) ← pool.memberRef (← u2)
    discard <| take 2
    return .method opcode member true
  | some .invokeDynamic =>
    let (name, descriptor, bootstrap) ← pool.invokeDynamic (← u2)
    discard <| take 2
    return .invokeDynamic name descriptor bootstrap
  | some .type => return .type opcode (← pool.takeClassName)
  | some .newArray => return .newArray (← u1)
  | some .wide => readWide offset
  | some .multiArray => return .multiArray (← pool.takeClassName) (← u1)

def operand : Instruction → Interning (Option UInt16)
  | load _ constant => some <$> Interning.constant constant
  | type _ name | multiArray name _ => some <$> Interning.className name
  | field _ member => some <$> Interning.fieldRef member
  | method _ member isInterface => some <$> Interning.methodRef member isInterface
  | invokeDynamic name descriptor bootstrap =>
    some <$> Interning.invokeDynamic name descriptor bootstrap
  | _ => pure none

/-- A constant whose index does not fit into one byte is loaded by the longer opcode. -/
def widens (instruction : Instruction) (operand : Option UInt16) : Bool :=
  match instruction with
  | load opcode _ => opcode == Opcode.ldc && operand.getD 0 > 255
  | _ => false

def writtenSize (instruction : Instruction) (operand : Option UInt16) (position : Nat) : Nat :=
  instruction.size position + if instruction.widens operand then 1 else 0

def needOperand : Option UInt16 → Except FormatError UInt16
  | some index => .ok index
  | none => .error .missingOperand

def argumentCount (descriptor : String) : Except FormatError UInt8 := do
  let type ← Descriptor.methodType descriptor
  if type.parameterSlots + 1 > 255 then throw (.invalidDescriptor descriptor)
  return (type.parameterSlots + 1).toUInt8

open Bytes

def farDistance (distance : Int) : Bytes := u4 (Int32.ofInt distance).toUInt32

def writeJump (opcode : UInt8) (position target : Nat) : Except FormatError Bytes :=
  let distance : Int := (target : Int) - position
  if opcode = Opcode.gotoW ∨ opcode = Opcode.jsrW then return opcode :: farDistance distance
  else if -32768 ≤ distance ∧ distance ≤ 32767 then
    return opcode :: u2 (Int16.ofInt distance).toUInt16
  else throw (.branchTooFar position target)

def write (move : Nat → Nat) (position : Nat) (operand : Option UInt16) :
    Instruction → Except FormatError Bytes
  | simple opcode => return u1 opcode
  | push opcode value =>
    if opcode = Opcode.bipush then return [opcode, value.toUInt16.toUInt8]
    else return opcode :: u2 value.toUInt16
  | load opcode _ => do
    let index ← needOperand operand
    if opcode ≠ Opcode.ldc then return opcode :: u2 index
    else if index ≤ 255 then return [Opcode.ldc, index.toUInt8]
    else return Opcode.ldcW :: u2 index
  | .local opcode index wide =>
    if wide then return Opcode.wide :: opcode :: u2 index
    else return [opcode, index.toUInt8]
  | increment index delta wide =>
    if wide then return Opcode.wide :: Opcode.iinc :: u2 index ++ u2 delta.toUInt16
    else return [Opcode.iinc, index.toUInt8, delta.toUInt16.toUInt8]
  | jump opcode target => writeJump opcode position (move target)
  | tableSwitch default low high targets =>
    return Opcode.tableswitch :: List.replicate (padding position) 0 ++
      farDistance (move default - position) ++ u4 low.toUInt32 ++ u4 high.toUInt32 ++
      targets.flatMap fun target => farDistance (move target - position)
  | lookupSwitch default pairs =>
    return Opcode.lookupswitch :: List.replicate (padding position) 0 ++
      farDistance (move default - position) ++ u4 pairs.length.toUInt32 ++
      pairs.flatMap fun (key, target) => u4 key.toUInt32 ++ farDistance (move target - position)
  | type opcode _ | field opcode _ => return opcode :: u2 (← needOperand operand)
  | method opcode member _ => do
    let index ← needOperand operand
    if opcode = Opcode.invokeinterface then
      return opcode :: u2 index ++ [← argumentCount member.descriptor, 0]
    else return opcode :: u2 index
  | invokeDynamic .. => return Opcode.invokedynamic :: u2 (← needOperand operand) ++ [0, 0]
  | newArray elementType => return [Opcode.newarray, elementType]
  | multiArray _ dimensions =>
    return Opcode.multianewarray :: u2 (← needOperand operand) ++ [dimensions]

end Instruction

end ClassRenaming
