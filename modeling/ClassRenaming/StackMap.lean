import ClassRenaming.Annotations

/-!
Stack map frames. A frame says which types the local variables and the operand stack hold at a code
offset, in short forms that refer to the locals of the frame before it. Offsets are absolute here;
in a class file each is written as its distance from the one before, less one after the first.
-/

namespace ClassRenaming

inductive VerificationType where
  | top
  | integer
  | float
  | double
  | long
  | null
  | uninitializedThis
  /-- An internal name, or a descriptor for arrays. -/
  | object (name : String)
  /-- A value made by the `new` instruction at this offset and not yet constructed. -/
  | uninitialized (offset : Nat)
  deriving DecidableEq, Repr, Inhabited

def VerificationType.isWide : VerificationType → Bool
  | .long | .double => true
  | _ => false

inductive FrameKind where
  | same
  | sameWithItem (item : VerificationType)
  | chop (count : UInt8)
  | append (types : List VerificationType)
  | full (locals stack : List VerificationType)
  deriving DecidableEq, Repr, Inhabited

structure Frame where
  offset : Nat
  kind : FrameKind
  deriving DecidableEq, Repr, Inhabited

namespace FrameKind

def types : FrameKind → List VerificationType
  | same | chop _ => []
  | sameWithItem item => [item]
  | append types => types
  | full locals stack => locals ++ stack

def map (f : VerificationType → VerificationType) : FrameKind → FrameKind
  | same => same
  | chop count => chop count
  | sameWithItem item => sameWithItem (f item)
  | append types => append (types.map f)
  | full locals stack => full (locals.map f) (stack.map f)

/-- The shortest form of the given locals and stack after a frame with the given previous locals.
Here a long or double is one entry. -/
def compress (previous locals stack : List VerificationType) : FrameKind :=
  match stack with
  | [] =>
    if locals = previous then same
    else if locals.length < previous.length ∧ previous.length - locals.length ≤ 3 ∧
        locals.isPrefixOf previous then
      chop (previous.length - locals.length).toUInt8
    else if previous.length < locals.length ∧ locals.length - previous.length ≤ 3 ∧
        previous.isPrefixOf locals then
      append (locals.drop previous.length)
    else full locals stack
  | [item] => if locals = previous then sameWithItem item else full locals stack
  | _ => full locals stack

def expand (previous : List VerificationType) :
    FrameKind → List VerificationType × List VerificationType
  | same => (previous, [])
  | sameWithItem item => (previous, [item])
  | chop count => (previous.take (previous.length - count.toNat), [])
  | append types => (previous ++ types, [])
  | full locals stack => (locals, stack)

end FrameKind

section Reading

open Reader

def VerificationType.read (pool : ConstantPool) : Reader VerificationType := do
  match ← u1 with
  | 0 => return .top
  | 1 => return .integer
  | 2 => return .float
  | 3 => return .double
  | 4 => return .long
  | 5 => return .null
  | 6 => return .uninitializedThis
  | 7 => return .object (← pool.takeClassName)
  | 8 => return .uninitialized (← u2).toNat
  | _ => throw (.malformed "StackMapTable")

def Frame.readRelative (pool : ConstantPool) : Reader Frame := do
  let type := VerificationType.read pool
  let tag ← u1
  if tag ≤ 63 then return ⟨tag.toNat, .same⟩
  else if tag ≤ 127 then return ⟨(tag - 64).toNat, .sameWithItem (← type)⟩
  else if tag ≤ 246 then throw (.malformed "StackMapTable")
  else
    let distance := (← u2).toNat
    if tag = 247 then return ⟨distance, .sameWithItem (← type)⟩
    else if tag ≤ 250 then return ⟨distance, .chop (251 - tag)⟩
    else if tag = 251 then return ⟨distance, .same⟩
    else if tag ≤ 254 then return ⟨distance, .append (← many (tag - 251).toNat type)⟩
    else return ⟨distance, .full (← table type) (← table type)⟩

/-- Turns distances into offsets, given the offset a distance of zero stands for. -/
def Frame.absolute : Nat → List Frame → List Frame
  | _, [] => []
  | base, frame :: rest =>
    ⟨base + frame.offset, frame.kind⟩ :: Frame.absolute (base + frame.offset + 1) rest

def Frame.readTable (pool : ConstantPool) : Reader (List Frame) := do
  return Frame.absolute 0 (← table (Frame.readRelative pool))

end Reading

section Writing

open Bytes

/-- The offset of a `new` instruction is moved with the code. -/
def VerificationType.write (move : Nat → Nat) : VerificationType → Interning Bytes
  | .top => return [0]
  | .integer => return [1]
  | .float => return [2]
  | .double => return [3]
  | .long => return [4]
  | .null => return [5]
  | .uninitializedThis => return [6]
  | .object name => return 7 :: u2 (← Interning.className name)
  | .uninitialized offset =>
    if move offset < 65536 then return 8 :: u2 (move offset).toUInt16
    else throw (.codeTooLarge offset)

def VerificationType.writeAll (move : Nat → Nat) (types : List VerificationType) :
    Interning Bytes :=
  List.flatten <$> types.mapM (VerificationType.write move)

def VerificationType.writeTable (move : Nat → Nat) (types : List VerificationType) :
    Interning Bytes := do
  let count ← tableCount types.length
  return count ++ (← VerificationType.writeAll move types)

def FrameKind.write (move : Nat → Nat) (distance : Nat) : FrameKind → Interning Bytes
  | .same =>
    if distance < 64 then return [distance.toUInt8] else return 251 :: u2 distance.toUInt16
  | .sameWithItem item => do
    let item ← item.write move
    if distance < 64 then return (64 + distance.toUInt8) :: item
    else return 247 :: u2 distance.toUInt16 ++ item
  | .chop count => return (251 - count) :: u2 distance.toUInt16
  | .append types => do
    let body ← VerificationType.writeAll move types
    return (251 + types.length.toUInt8) :: u2 distance.toUInt16 ++ body
  | .full locals stack => do
    let locals ← VerificationType.writeTable move locals
    let stack ← VerificationType.writeTable move stack
    return 255 :: u2 distance.toUInt16 ++ locals ++ stack

/-- Writes frames whose moved offsets must go up; `base` is the least offset allowed next. -/
def Frame.writeFrom (move : Nat → Nat) : Nat → List Frame → Interning Bytes
  | _, [] => return []
  | base, frame :: rest => do
    let offset := move frame.offset
    if offset < base then throw (.malformed "StackMapTable")
    if offset - base > 65535 then throw (.codeTooLarge offset)
    let first ← frame.kind.write move (offset - base)
    let rest ← Frame.writeFrom move (offset + 1) rest
    return first ++ rest

def Frame.writeTable (move : Nat → Nat) (frames : List Frame) : Interning Bytes := do
  let count ← tableCount frames.length
  return count ++ (← Frame.writeFrom move 0 frames)

end Writing

end ClassRenaming
