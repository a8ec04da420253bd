import ClassRenaming.Code.Basic

/-!
Reading the body of a method. Branch targets and the exception table are held against the starts of
the instructions, which are marked in one array of flags.
-/

namespace ClassRenaming

open Reader

def LocalVariable.read (pool : ConstantPool) : Reader LocalVariable := do
  let start := (← u2).toNat
  let length := (← u2).toNat
  let name ← pool.takeUtf8
  let descriptor ← pool.takeUtf8
  return { start, length, name, descriptor, index := ← u2 }

def CodeAttribute.read (pool : ConstantPool) (name : String) (info : Bytes) :
    Except FormatError CodeAttribute :=
  let whole {α : Type} (reader : Reader α) : Except FormatError α :=
    reader.all info .trailingBytes
  let typeAnnotations := TypeAnnotation.readTable pool
  match name with
  | "StackMapTable" => .stackMap <$> whole (Frame.readTable pool)
  | "LineNumberTable" => .lineNumbers <$> whole (table do return ⟨(← u2).toNat, ← u2⟩)
  | "LocalVariableTable" => .localVariables <$> whole (table (LocalVariable.read pool))
  | "LocalVariableTypeTable" => .localVariableTypes <$> whole (table (LocalVariable.read pool))
  | "RuntimeVisibleTypeAnnotations" => .typeAnnotations .visible <$> whole typeAnnotations
  | "RuntimeInvisibleTypeAnnotations" => .typeAnnotations .invisible <$> whole typeAnnotations
  | _ => .ok (.unknown name info)

def takeAttribute (pool : ConstantPool) : Reader (String × Bytes) := do
  let name ← u2
  let length ← u4
  let info ← take length.toNat
  return (← pool.utf8 name, info)

namespace Code

/-- Reads instructions to the end of the bytes; each takes at least one byte, so at most `steps`. -/
def readInstructions (pool : ConstantPool) (length : Nat) :
    Nat → Nat → Bytes → Except FormatError (List Placed)
  | _, _, [] => .ok []
  | 0, _, _ :: _ => .error .unexpectedEnd
  | steps + 1, offset, bytes =>
    match Instruction.read pool length offset bytes with
    | .error cause => .error cause
    | .ok (instruction, rest) =>
      match readInstructions pool length steps (offset + instruction.size offset) rest with
      | .error cause => .error cause
      | .ok others => .ok (⟨offset, instruction⟩ :: others)

def startFlags (length : Nat) (instructions : List Placed) : Array Bool :=
  instructions.foldl (fun flags placed => flags.setIfInBounds placed.offset true)
    (Array.replicate length false)

def checkTargets (isStart : Nat → Bool) (instructions : List Placed) : Except FormatError Unit :=
  instructions.forM fun placed =>
    match placed.instruction.branchTargets.find? (!isStart ·) with
    | some target => .error (.invalidCodeOffset placed.offset target)
    | none => .ok ()

def handlerIsValid (isStart : Nat → Bool) (length : Nat) (handler : Handler) : Bool :=
  isStart handler.start && isStart handler.target &&
    (handler.stop == length || isStart handler.stop) && handler.start < handler.stop

def readHandler (pool : ConstantPool) (isStart : Nat → Bool) (length : Nat) : Reader Handler := do
  let start := (← u2).toNat
  let stop := (← u2).toNat
  let target := (← u2).toNat
  let catchType ← pool.takeClassName?
  let handler : Handler := { start, stop, target, catchType }
  if !handlerIsValid isStart length handler then throw (.malformed "Code exception_table")
  return handler

def maxLength : Nat := 65535

def readBody (pool : ConstantPool) : Reader Code := do
  let maxStack ← u2
  let maxLocals ← u2
  let length := (← u4).toNat
  if length = 0 ∨ length > maxLength then throw (.malformed "Code")
  let bytecode ← take length
  let instructions ← readInstructions pool length length 0 bytecode
  let flags := startFlags length instructions
  let isStart (offset : Nat) : Bool := flags.getD offset false
  checkTargets isStart instructions
  let handlers ← table (readHandler pool isStart length)
  let attributes ← table do
    let (name, info) ← takeAttribute pool
    CodeAttribute.read pool name info
  return { maxStack, maxLocals, instructions, length, handlers, attributes }

def read (pool : ConstantPool) (info : Bytes) : Except FormatError Code :=
  (readBody pool).all info .trailingBytes

end Code

end ClassRenaming
