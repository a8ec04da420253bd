import ClassRenaming.Instruction
import ClassRenaming.StackMap

/-!
The body of a method: instructions at their offsets, the exception table, and the tables that refer
to code offsets. A body as read has instructions that tile its bytes, and targets that are starts of
instructions; a body put together by hand need not.
-/

namespace ClassRenaming

structure Placed where
  offset : Nat
  instruction : Instruction
  deriving Inhabited

structure Handler where
  start : Nat
  stop : Nat
  target : Nat
  /-- Absent when everything is caught. -/
  catchType : Option String
  deriving DecidableEq, Repr, Inhabited

structure LineNumber where
  start : Nat
  line : UInt16
  deriving DecidableEq, Repr, Inhabited

structure LocalVariable where
  start : Nat
  length : Nat
  name : String
  descriptor : String
  index : UInt16
  deriving DecidableEq, Repr, Inhabited

inductive CodeAttribute where
  | stackMap (frames : List Frame)
  | lineNumbers (lines : List LineNumber)
  | localVariables (table : List LocalVariable)
  | localVariableTypes (table : List LocalVariable)
  | typeAnnotations (visibility : Visibility) (annotations : List TypeAnnotation)
  | unknown (name : String) (info : Bytes)
  deriving Inhabited

structure Code where
  maxStack : UInt16
  maxLocals : UInt16
  instructions : List Placed
  /-- The offset just past the last instruction. -/
  length : Nat
  handlers : List Handler
  attributes : List CodeAttribute
  deriving Inhabited

namespace Code

def hasSubroutines (code : Code) : Bool :=
  code.instructions.any (·.instruction.isSubroutine)

def ends (code : Code) : List Nat :=
  (code.instructions.map Placed.offset).tail ++ [code.length]

def spans (code : Code) : List (Placed × Nat) := code.instructions.zip code.ends

def stackMap? (code : Code) : Option (List Frame) :=
  code.attributes.findSome? fun
    | .stackMap frames => some frames
    | _ => none

/-- Puts frames in the place of the first stack map table, or in front; no frames, no table. -/
def setStackMap (frames : List Frame) (code : Code) : Code :=
  { code with attributes := replaceIn code.attributes }
where
  table : List CodeAttribute := if frames.isEmpty then [] else [.stackMap frames]
  replaceIn (attributes : List CodeAttribute) : List CodeAttribute :=
    let isTable : CodeAttribute → Bool
      | .stackMap _ => true
      | _ => false
    if attributes.any isTable then
      attributes.takeWhile (!isTable ·) ++ table ++ (attributes.dropWhile (!isTable ·)).drop 1
    else table ++ attributes

end Code

end ClassRenaming
