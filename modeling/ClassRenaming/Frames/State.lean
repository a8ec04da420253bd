import ClassRenaming.Hierarchy.Metadata
import ClassRenaming.Text.Quoted

/-!
What is known between two instructions: a type for every slot of the local variables and of the
operand stack. A long or double is its type in one slot and `top` in the next. Slots of local
variables beyond the list hold `top`.
-/

namespace ClassRenaming

namespace VerificationType

def slots (type : VerificationType) : Nat := if type.isWide then 2 else 1

def ofFieldType : FieldType → VerificationType
  | .base .long => .long
  | .base .double => .double
  | .base .float => .float
  | .base _ => .integer
  | .object name => .object name
  | .array component => .object (FieldType.array component).render

def describe : VerificationType → String
  | top => "Top"
  | integer => "Integer"
  | float => "Float"
  | double => "Double"
  | long => "Long"
  | null => "Null"
  | uninitializedThis => "UninitializedThis"
  | object name => "Object(" ++ quoted name ++ ")"
  | uninitialized offset => "Uninitialized(" ++ toString offset ++ ")"

end VerificationType

inductive FrameFault where
  | stackUnderflow
  | subroutine
  | unexpectedOpcode (opcode : UInt8)
  | descriptor (cause : FormatError)
  | notAnArray (type : VerificationType)
  | invalidElementType (code : UInt8)
  | notMade (offset : Nat)
  | heightsDiffer (recorded incoming : Nat)
  | noEnd
  | noInstruction (offset : Nat)
  | stackTooLarge
  | localsTooLarge
  /-- No fault of the body: it stands for an analysis that goes on for ever. -/
  | outOfSteps
  deriving DecidableEq, Repr, Inhabited

def FrameFault.message : FrameFault → String
  | stackUnderflow => "operand stack underflow"
  | subroutine => "subroutines are not analyzed"
  | unexpectedOpcode opcode => "unexpected opcode 0x" ++ Hex.padded 2 opcode.toNat
  | descriptor cause => cause.message
  | notAnArray type => "aaload from non-array " ++ type.describe
  | invalidElementType code => "invalid newarray type " ++ toString code.toNat
  | notMade offset => "no `new` at offset " ++ toString offset
  | heightsDiffer recorded incoming =>
    "operand stacks of height " ++ toString recorded ++ " and " ++ toString incoming ++ " meet"
  | noEnd => "execution falls off the end of the code"
  | noInstruction offset => "no instruction at offset " ++ toString offset
  | stackTooLarge => "max_stack exceeds 65535"
  | localsTooLarge => "max_locals exceeds 65535"
  | outOfSteps => "the analysis has no end"

structure FrameState where
  locals : List VerificationType
  /-- The operand stack from its top down. -/
  stack : List VerificationType
  deriving DecidableEq, Repr, Inhabited

namespace FrameState

open VerificationType

abbrev Outcome := Except FrameFault

def push (type : VerificationType) (state : FrameState) : FrameState :=
  { state with stack := if type.isWide then top :: type :: state.stack else type :: state.stack }

def pop (state : FrameState) : Outcome (VerificationType × FrameState) :=
  match state.stack with
  | type :: rest => .ok (type, { state with stack := rest })
  | [] => .error .stackUnderflow

def drop (count : Nat) (state : FrameState) : Outcome FrameState :=
  if state.stack.length < count then .error .stackUnderflow
  else .ok { state with stack := state.stack.drop count }

def replace (count : Nat) (result : VerificationType) (state : FrameState) :
    Outcome FrameState :=
  (push result) <$> state.drop count

def rearrange (depth : Nat) (order : List Nat) (state : FrameState) : Outcome FrameState :=
  if state.stack.length < depth then .error .stackUnderflow
  else .ok { state with
    stack := order.map (fun i => state.stack[i]?.getD top) ++ state.stack.drop depth }

def localType (state : FrameState) (index : Nat) : VerificationType :=
  state.locals[index]?.getD top

def extend (length : Nat) (slots : List VerificationType) : List VerificationType :=
  slots ++ List.replicate (length - slots.length) top

def reserve (length : Nat) (state : FrameState) : FrameState :=
  { state with locals := extend length state.locals }

/-- A value of two slots whose second slot is `index` is lost. -/
def cutWide (index : Nat) (slots : List VerificationType) : List VerificationType :=
  if 0 < index ∧ (slots[index - 1]?.getD top).isWide then slots.set (index - 1) top else slots

def setLocal (index : Nat) (type : VerificationType) (state : FrameState) : FrameState :=
  let slots := (cutWide index (extend (index + type.slots) state.locals)).set index type
  { state with locals := if type.isWide then slots.set (index + 1) top else slots }

/-- Every copy of a value that was not constructed before is a value of its class now. -/
def construct (before after : VerificationType) (state : FrameState) : FrameState :=
  let f type := if type = before then after else type
  { locals := state.locals.map f, stack := state.stack.map f }

end FrameState

end ClassRenaming
