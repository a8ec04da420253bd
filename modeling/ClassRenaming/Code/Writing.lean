import ClassRenaming.Code.Basic

/-!
Writing the body of a method. All operands get their indices first, since these decide the sizes of
instructions; then the layout is known, and everything that holds an offset is written through it.
-/

namespace ClassRenaming

/-! Where the instructions of a body stand when it is written, and where each old offset goes. An
instruction may grow because the index of its constant grew, and a switch may need more or less
padding, so everything behind them moves. -/

structure Layout where
  /-- The new start of each instruction. -/
  starts : List Nat
  /-- The new offset for each old one up to the old length. -/
  moved : Array Nat
  length : Nat
  deriving DecidableEq, Repr, Inhabited

namespace Layout

def place : Nat → List (Placed × Option UInt16) → List (Nat × Nat) × Nat
  | position, [] => ([], position)
  | position, (placed, operand) :: rest =>
    let size := placed.instruction.writtenSize operand position
    let (others, stop) := place (position + size) rest
    ((position, size) :: others, stop)

/-- Old offsets from `start` up to `stop` go into the new instruction, no further than its last
byte. -/
def moveSpan (moved : Array Nat) (start stop position size : Nat) : Array Nat :=
  (List.range (stop - start)).foldl
    (fun moved inside => moved.setIfInBounds (start + inside) (position + min inside (size - 1)))
    moved

def compute (code : Code) (operands : List (Option UInt16)) : Except FormatError Layout :=
  let (places, length) := place 0 (code.instructions.zip operands)
  if length > 65535 then .error (.codeTooLarge length)
  else
    let moved := (code.spans.zip places).foldl
      (fun moved ((placed, stop), position, size) =>
        moveSpan moved placed.offset stop position size)
      (Array.replicate (code.length + 1) 0)
    .ok ⟨places.map (·.1), moved.setIfInBounds code.length length, length⟩

/-- An offset past the old end goes to the new end. -/
def move (layout : Layout) (offset : Nat) : Nat := layout.moved.getD offset layout.length

end Layout

open Bytes

def Visibility.annotationsName : Visibility → String
  | .visible => "RuntimeVisibleAnnotations"
  | .invisible => "RuntimeInvisibleAnnotations"

def Visibility.parameterAnnotationsName : Visibility → String
  | .visible => "RuntimeVisibleParameterAnnotations"
  | .invisible => "RuntimeInvisibleParameterAnnotations"

def Visibility.typeAnnotationsName : Visibility → String
  | .visible => "RuntimeVisibleTypeAnnotations"
  | .invisible => "RuntimeInvisibleTypeAnnotations"

def attributeBytes (name : UInt16) (info : Bytes) : Except FormatError Bytes :=
  if info.length < 4294967296 then .ok (u2 name ++ u4 info.length.toUInt32 ++ info)
  else .error .attributeTooLarge

def LineNumber.write (move : Nat → Nat) (line : LineNumber) : Except FormatError Bytes := do
  return (← codeOffset (move line.start)) ++ u2 line.line

def LocalVariable.write (move : Nat → Nat) (entry : LocalVariable) : Interning Bytes := do
  let start := move entry.start
  let stop := move (entry.start + entry.length)
  let startBytes ← codeOffset start
  let lengthBytes ← codeOffset (stop - start)
  let name ← Interning.utf8 entry.name
  let descriptor ← Interning.utf8 entry.descriptor
  return startBytes ++ lengthBytes ++ u2 name ++ u2 descriptor ++ u2 entry.index

def writeTable {α : Type} (write : α → Interning Bytes) (items : List α) : Interning Bytes := do
  let count ← tableCount items.length
  return count ++ (← items.mapM write).flatten

namespace CodeAttribute

def name : CodeAttribute → String
  | stackMap _ => "StackMapTable"
  | lineNumbers _ => "LineNumberTable"
  | localVariables _ => "LocalVariableTable"
  | localVariableTypes _ => "LocalVariableTypeTable"
  | typeAnnotations visibility _ => visibility.typeAnnotationsName
  | unknown name _ => name

def writeBody (move : Nat → Nat) : CodeAttribute → Interning Bytes
  | stackMap frames => Frame.writeTable move frames
  | lineNumbers lines => writeTable (fun line => liftM (LineNumber.write move line)) lines
  | localVariables entries | localVariableTypes entries =>
    writeTable (LocalVariable.write move) entries
  | typeAnnotations _ annotations => TypeAnnotation.writeTable move annotations
  | unknown _ info => return info

/-- The name of an attribute gets its index after everything in the body. -/
def write (move : Nat → Nat) (item : CodeAttribute) : Interning Bytes := do
  let info ← item.writeBody move
  let name ← Interning.utf8 item.name
  attributeBytes name info

end CodeAttribute

def Handler.write (move : Nat → Nat) (handler : Handler) : Interning Bytes := do
  let start ← codeOffset (move handler.start)
  let stop ← codeOffset (move handler.stop)
  let target ← codeOffset (move handler.target)
  let catchType ← match handler.catchType with
    | some name => Interning.className name
    | none => pure 0
  return start ++ stop ++ target ++ u2 catchType

namespace Code

def bytecode (code : Code) (operands : List (Option UInt16)) (layout : Layout) :
    Except FormatError Bytes :=
  List.flatten <$> ((code.instructions.zip operands).zip layout.starts).mapM
    fun ((placed, operand), position) => placed.instruction.write layout.move position operand

def write (code : Code) : Interning Bytes := do
  let operands ← code.instructions.mapM (·.instruction.operand)
  let layout ← Layout.compute code operands
  let bytecode ← code.bytecode operands layout
  let handlers ← writeTable (Handler.write layout.move) code.handlers
  let attributes ← writeTable (CodeAttribute.write layout.move) code.attributes
  return u2 code.maxStack ++ u2 code.maxLocals ++ u4 layout.length.toUInt32 ++ bytecode ++ handlers
    ++ attributes

end Code

end ClassRenaming
