import ClassRenaming.Code.Basic
import ClassRenaming.Frames.State

/-!
What an instruction does to the types in local variables and on the operand stack. Most opcodes
without operands take some slots off the stack and push at most one result, so a table of effects
says what they do.
-/

namespace ClassRenaming

open VerificationType FrameState

/-- A local variable is loaded or stored as an int, long, float, double or reference; the latter
keeps the type it has. -/
def kindType? : Nat → Option VerificationType
  | 0 => some .integer
  | 1 => some .long
  | 2 => some .float
  | 3 => some .double
  | _ => none

inductive Effect where
  /-- Takes slots off the stack and pushes the result, if there is one. -/
  | replace (slots : Nat) (result : Option VerificationType)
  | load (kind index : Nat)
  | store (kind index : Nat)
  | rearrange (depth : Nat) (order : List Nat)
  /-- Replaces an array and an index by an element. -/
  | element
  deriving DecidableEq, Repr, Inhabited

namespace Effect

/-- Opcodes of arithmetic come in fours, for int, long, float and double. -/
def arithmetic (operands code : Nat) : Effect :=
  let type := (kindType? (code % 4)).getD .double
  .replace (operands * type.slots) (some type)

def ofOpcode? (opcode : UInt8) : Option Effect :=
  let code := opcode.toNat
  if code = 0x00 then some (.replace 0 none)
  else if code = 0x01 then some (.replace 0 (some .null))
  else if code ≤ 0x08 then some (.replace 0 (some .integer))
  else if code ≤ 0x0A then some (.replace 0 (some .long))
  else if code ≤ 0x0D then some (.replace 0 (some .float))
  else if code ≤ 0x0F then some (.replace 0 (some .double))
  else if code < 0x1A then none
  else if code ≤ 0x2D then some (.load ((code - 0x1A) / 4) ((code - 0x1A) % 4))
  else if code = 0x2F then some (.replace 2 (some .long))
  else if code = 0x30 then some (.replace 2 (some .float))
  else if code = 0x31 then some (.replace 2 (some .double))
  else if code = 0x32 then some .element
  else if code ≤ 0x35 then some (.replace 2 (some .integer))
  else if code < 0x3B then none
  else if code ≤ 0x4E then some (.store ((code - 0x3B) / 4) ((code - 0x3B) % 4))
  else if code = 0x50 ∨ code = 0x52 then some (.replace 4 none)
  else if code ≤ 0x56 then some (.replace 3 none)
  else if code = 0x57 then some (.replace 1 none)
  else if code = 0x58 then some (.replace 2 none)
  else if code = 0x59 then some (.rearrange 1 [0, 0])
  else if code = 0x5A then some (.rearrange 2 [0, 1, 0])
  else if code = 0x5B then some (.rearrange 3 [0, 1, 2, 0])
  else if code = 0x5C then some (.rearrange 2 [0, 1, 0, 1])
  else if code = 0x5D then some (.rearrange 3 [0, 1, 2, 0, 1])
  else if code = 0x5E then some (.rearrange 4 [0, 1, 2, 3, 0, 1])
  else if code = 0x5F then some (.rearrange 2 [1, 0])
  else if code ≤ 0x73 then some (arithmetic 2 (code - 0x60))
  else if code ≤ 0x77 then some (arithmetic 1 (code - 0x74))
  else if code ≤ 0x7D then
    some (if code % 2 = 0 then .replace 2 (some .integer) else .replace 3 (some .long))
  else if code ≤ 0x83 then
    some (if code % 2 = 0 then .replace 2 (some .integer) else .replace 4 (some .long))
  else if code < 0x85 then none
  else if code = 0x85 ∨ code = 0x8C then some (.replace 1 (some .long))
  else if code = 0x86 then some (.replace 1 (some .float))
  else if code = 0x87 ∨ code = 0x8D then some (.replace 1 (some .double))
  else if code = 0x88 ∨ code = 0x8E then some (.replace 2 (some .integer))
  else if code = 0x89 ∨ code = 0x90 then some (.replace 2 (some .float))
  else if code = 0x8A then some (.replace 2 (some .double))
  else if code = 0x8F then some (.replace 2 (some .long))
  else if code ≤ 0x93 then some (.replace 1 (some .integer))
  else if code = 0x95 ∨ code = 0x96 then some (.replace 2 (some .integer))
  else if code ≤ 0x98 then some (.replace 4 (some .integer))
  else if code < 0xAC then none
  else if code = 0xAD ∨ code = 0xAF then some (.replace 2 none)
  else if code ≤ 0xB0 then some (.replace 1 none)
  else if code = 0xB1 then some (.replace 0 none)
  else if code = 0xBE then some (.replace 1 (some .integer))
  else if code = 0xBF ∨ code = 0xC2 ∨ code = 0xC3 then some (.replace 1 none)
  else none

end Effect

def liftDescriptor {α : Type} : Except FormatError α → Outcome α
  | .ok value => .ok value
  | .error cause => .error (.descriptor cause)

namespace VerificationType

def element : VerificationType → Outcome VerificationType
  | .null => .ok .null
  | .object name =>
    match name.toList with
    | '[' :: rest => ofFieldType <$> liftDescriptor (Descriptor.fieldType (String.ofList rest))
    | _ => .error (.notAnArray (.object name))
  | other => .error (.notAnArray other)

def ofConstant : Constant → Outcome VerificationType
  | .integer _ => .ok .integer
  | .float _ => .ok .float
  | .long _ => .ok .long
  | .double _ => .ok .double
  | .string _ => .ok (.object "java/lang/String")
  | .classRef _ => .ok (.object "java/lang/Class")
  | .methodType _ => .ok (.object "java/lang/invoke/MethodType")
  | .methodHandle _ => .ok (.object "java/lang/invoke/MethodHandle")
  | .dynamic _ descriptor _ => ofFieldType <$> liftDescriptor (Descriptor.fieldType descriptor)

def arrayOf (name : String) : VerificationType :=
  if name.startsWith "[" then .object ("[" ++ name) else .object ("[L" ++ name ++ ";")

def baseArray (code : UInt8) : Outcome VerificationType :=
  match code.toNat with
  | 4 => .ok (.object "[Z")
  | 5 => .ok (.object "[C")
  | 6 => .ok (.object "[F")
  | 7 => .ok (.object "[D")
  | 8 => .ok (.object "[B")
  | 9 => .ok (.object "[S")
  | 10 => .ok (.object "[I")
  | 11 => .ok (.object "[J")
  | _ => .error (.invalidElementType code)

end VerificationType

namespace FrameState

def load (kind index : Nat) (state : FrameState) : FrameState :=
  let type := (kindType? kind).getD (state.localType index)
  (state.reserve (index + type.slots)).push type

/-- A reference is one slot, of whatever type it holds. -/
def store (kind index : Nat) (state : FrameState) : Outcome FrameState :=
  match kindType? kind with
  | some type => (setLocal index type) <$> state.drop type.slots
  | none => do
    let (type, state) ← state.pop
    return state.setLocal index type

def apply (state : FrameState) : Effect → Outcome FrameState
  | .replace count none => state.drop count
  | .replace count (some result) => state.replace count result
  | .load kind index => .ok (state.load kind index)
  | .store kind index => state.store kind index
  | .rearrange depth order => state.rearrange depth order
  | .element => do
    let state ← state.drop 1
    let (array, state) ← state.pop
    return state.push (← array.element)

def pushResult (result : Option FieldType) (state : FrameState) : FrameState :=
  match result with
  | some type => state.push (ofFieldType type)
  | none => state

/-- The class of a value whose constructor has run. `made` gives the class that the `new`
instruction at an offset makes. -/
def constructed? (owner : String) (made : Nat → Option String) :
    VerificationType → Outcome (Option String)
  | .uninitializedThis => .ok (some owner)
  | .uninitialized offset =>
    match made offset with
    | some name => .ok (some name)
    | none => .error (.notMade offset)
  | _ => .ok none

/-- Takes the receiver of a call; a constructor makes it a value of its class. -/
def takeReceiver (owner : String) (made : Nat → Option String) (constructor : Bool)
    (state : FrameState) : Outcome FrameState := do
  let (receiver, state) ← state.pop
  if constructor then
    match ← constructed? owner made receiver with
    | some name => return state.construct receiver (.object name)
    | none => return state
  else return state

def execute (owner : String) (made : Nat → Option String) (placed : Placed) (state : FrameState) :
    Outcome FrameState :=
  match placed.instruction with
  | .simple opcode =>
    match Effect.ofOpcode? opcode with
    | some effect => state.apply effect
    | none => .error (.unexpectedOpcode opcode)
  | .push .. => .ok (state.push .integer)
  | .load _ constant => do return state.push (← ofConstant constant)
  | .local opcode index _ =>
    if opcode.toNat ≤ 0x19 then .ok (state.load (opcode.toNat - 0x15) index.toNat)
    else if opcode.toNat ≤ 0x3A then state.store (opcode.toNat - 0x36) index.toNat
    else .error .subroutine
  | .increment index _ _ => .ok (state.setLocal index.toNat .integer)
  | .jump opcode _ =>
    if opcode = Opcode.goto ∨ opcode = Opcode.gotoW then .ok state
    else if opcode = Opcode.jsr ∨ opcode = Opcode.jsrW then .error .subroutine
    else if 0x9F ≤ opcode ∧ opcode ≤ 0xA6 then state.drop 2
    else state.drop 1
  | .tableSwitch .. | .lookupSwitch .. => state.drop 1
  | .type opcode name =>
    if opcode = Opcode.new then .ok (state.push (.uninitialized placed.offset))
    else if opcode = Opcode.anewarray then state.replace 1 (arrayOf name)
    else if opcode = Opcode.checkcast then state.replace 1 (.object name)
    else state.replace 1 .integer
  | .field opcode member => do
    let type ← liftDescriptor (Descriptor.fieldType member.descriptor)
    if opcode = Opcode.getstatic then return state.push (ofFieldType type)
    else if opcode = Opcode.putstatic then state.drop type.slots
    else if opcode = Opcode.getfield then state.replace 1 (ofFieldType type)
    else state.drop (type.slots + 1)
  | .method opcode member _ => do
    let type ← liftDescriptor (Descriptor.methodType member.descriptor)
    let state ← state.drop type.parameterSlots
    let constructor := opcode == Opcode.invokespecial && member.name == "<init>"
    let state ←
      if opcode = Opcode.invokestatic then pure state
      else state.takeReceiver owner made constructor
    return state.pushResult type.result
  | .invokeDynamic _ descriptor _ => do
    let type ← liftDescriptor (Descriptor.methodType descriptor)
    return (← state.drop type.parameterSlots).pushResult type.result
  | .newArray code => do
    let state ← state.drop 1
    return state.push (← baseArray code)
  | .multiArray name dimensions => state.replace dimensions.toNat (.object name)

end FrameState

end ClassRenaming
