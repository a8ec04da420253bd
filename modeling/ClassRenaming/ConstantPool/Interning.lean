import ClassRenaming.ConstantPool.Basic

/-!
Finding or making the index of a value. The pool only grows at its end, so an index stays good once
it is handed out. A value that is there already keeps its first index; a text prefers an entry
stored in its own form over one stored in another.
-/

namespace ClassRenaming

abbrev Interning := StateT ConstantPool (Except FormatError)

namespace ConstantPool

def find? (pool : ConstantPool) (entry : PoolEntry) : Option UInt16 :=
  (pool.entries.toList.findIdx? (· == entry)).map Nat.toUInt16

def findText? (pool : ConstantPool) (text : String) : Option UInt16 :=
  let stored (wanted : Bool) : PoolEntry → Bool
    | .utf8 found _ exact => exact == wanted && found == text
    | _ => false
  ((pool.entries.toList.findIdx? (stored true)).or
    (pool.entries.toList.findIdx? (stored false))).map Nat.toUInt16

def append (pool : ConstantPool) (entry : PoolEntry) : Except FormatError (UInt16 × ConstantPool) :=
  let entries := pool.entries.push entry
  let entries := if entry.isWide then entries.push .unusable else entries
  if entries.size > 65535 then .error .poolOverflow
  else .ok (pool.entries.size.toUInt16, { pool with entries })

end ConstantPool

namespace Interning

def entry (value : PoolEntry) : Interning UInt16 := fun pool =>
  match pool.find? value with
  | some index => .ok (index, pool)
  | none => pool.append value

def utf8 (text : String) : Interning UInt16 := fun pool =>
  match pool.findText? text with
  | some index => .ok (index, pool)
  | none =>
    let stored := ModifiedUtf8.encode text
    if stored.length > 65535 then .error .textTooLong
    else pool.append (.utf8 text stored true)

def className (name : String) : Interning UInt16 := do
  entry (.classRef (← utf8 name))

def nameAndType (name descriptor : String) : Interning UInt16 := do
  let name ← utf8 name
  let descriptor ← utf8 descriptor
  entry (.nameAndType name descriptor)

def memberParts (member : MemberRef) : Interning (UInt16 × UInt16) := do
  let owner ← className member.owner
  let nameType ← nameAndType member.name member.descriptor
  return (owner, nameType)

def fieldRef (member : MemberRef) : Interning UInt16 := do
  let (owner, nameType) ← memberParts member
  entry (.fieldRef owner nameType)

def methodRef (member : MemberRef) (isInterface : Bool) : Interning UInt16 := do
  let (owner, nameType) ← memberParts member
  if isInterface then entry (.interfaceMethodRef owner nameType)
  else entry (.methodRef owner nameType)

def methodHandle (handle : MethodHandle) : Interning UInt16 := do
  let reference ←
    if handle.isField then fieldRef handle.member else methodRef handle.member handle.isInterface
  entry (.methodHandle handle.kind reference)

def bootstrapRow (row : BootstrapEntry) : Interning UInt16 := fun pool =>
  match pool.bootstrap.toList.findIdx? (· == row) with
  | some index => .ok (index.toUInt16, pool)
  | none =>
    if pool.bootstrap.size > 65535 then .error .bootstrapOverflow
    else .ok (pool.bootstrap.size.toUInt16, { pool with bootstrap := pool.bootstrap.push row })

mutual

def constant : Constant → Interning UInt16
  | .integer value => entry (.integer value)
  | .float bits => entry (.float bits)
  | .long value => entry (.long value)
  | .double bits => entry (.double bits)
  | .string text => do entry (.string (← utf8 text))
  | .classRef name => className name
  | .methodType descriptor => do entry (.methodType (← utf8 descriptor))
  | .methodHandle handle => methodHandle handle
  | .dynamic name descriptor ⟨method, arguments⟩ => do
    let method ← methodHandle method
    let arguments ← constants arguments
    let row ← bootstrapRow ⟨method, arguments⟩
    let nameType ← nameAndType name descriptor
    entry (.dynamic row nameType)

def constants : List Constant → Interning (List UInt16)
  | [] => pure []
  | first :: rest => do
    let first ← constant first
    let rest ← constants rest
    return first :: rest

end

def bootstrapMethod (bootstrap : BootstrapMethod) : Interning UInt16 := do
  let method ← methodHandle bootstrap.method
  let arguments ← constants bootstrap.arguments
  bootstrapRow ⟨method, arguments⟩

def invokeDynamic (name descriptor : String) (bootstrap : BootstrapMethod) : Interning UInt16 := do
  let row ← bootstrapMethod bootstrap
  let nameType ← nameAndType name descriptor
  entry (.invokeDynamic row nameType)

end Interning

end ClassRenaming
