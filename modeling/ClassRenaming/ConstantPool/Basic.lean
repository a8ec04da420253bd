import ClassRenaming.Text.ModifiedUtf8

/-!
The constant pool of a class file, its bootstrap method table, and what an index stands for. Entries
refer to one another by index; looking one up checks that it exists and has the right kind. The
constant that is found has no indices in it, and floating-point values are kept as their bits, so
that every NaN stays itself.
-/

namespace ClassRenaming

structure MemberRef where
  owner : String
  name : String
  descriptor : String
  deriving DecidableEq, Repr, Inhabited

structure MethodHandle where
  kind : UInt8
  member : MemberRef
  /-- The member is declared in an interface. -/
  isInterface : Bool
  deriving DecidableEq, Repr, Inhabited

/-- The first four kinds of handles get or put a field. -/
def MethodHandle.isField (handle : MethodHandle) : Bool := 1 ≤ handle.kind && handle.kind ≤ 4

structure Bootstrap (α : Type) where
  method : MethodHandle
  arguments : List α
  deriving Repr, Inhabited

inductive Constant where
  | integer (value : Int32)
  | float (bits : UInt32)
  | long (value : Int64)
  | double (bits : UInt64)
  | string (text : String)
  | classRef (name : String)
  | methodType (descriptor : String)
  | methodHandle (handle : MethodHandle)
  | dynamic (name descriptor : String) (bootstrap : Bootstrap Constant)
  deriving Inhabited

abbrev BootstrapMethod := Bootstrap Constant

def Constant.isWide : Constant → Bool
  | .long _ | .double _ => true
  | .dynamic _ descriptor _ => descriptor == "J" || descriptor == "D"
  | _ => false

inductive PoolEntry where
  /-- Index zero and the second slot of a long or double. -/
  | unusable
  /-- A text with the bytes it is stored as; `exact` when writing the text gives those bytes. -/
  | utf8 (text : String) (stored : Bytes) (exact : Bool)
  | integer (value : Int32)
  | float (bits : UInt32)
  | long (value : Int64)
  | double (bits : UInt64)
  | classRef (name : UInt16)
  | string (text : UInt16)
  | fieldRef (owner nameType : UInt16)
  | methodRef (owner nameType : UInt16)
  | interfaceMethodRef (owner nameType : UInt16)
  | nameAndType (name descriptor : UInt16)
  | methodHandle (kind : UInt8) (reference : UInt16)
  | methodType (descriptor : UInt16)
  | dynamic (bootstrap nameType : UInt16)
  | invokeDynamic (bootstrap nameType : UInt16)
  | moduleRef (name : UInt16)
  | packageRef (name : UInt16)
  deriving DecidableEq, Repr, Inhabited

namespace PoolEntry

def kind : PoolEntry → String
  | unusable => "Unusable"
  | utf8 .. => "Utf8"
  | integer _ => "Integer"
  | float _ => "Float"
  | long _ => "Long"
  | double _ => "Double"
  | classRef _ => "Class"
  | string _ => "String"
  | fieldRef .. => "Fieldref"
  | methodRef .. => "Methodref"
  | interfaceMethodRef .. => "InterfaceMethodref"
  | nameAndType .. => "NameAndType"
  | methodHandle .. => "MethodHandle"
  | methodType _ => "MethodType"
  | dynamic .. => "Dynamic"
  | invokeDynamic .. => "InvokeDynamic"
  | moduleRef _ => "Module"
  | packageRef _ => "Package"

def isWide : PoolEntry → Bool
  | long _ | double _ => true
  | _ => false

def encode : PoolEntry → Bytes
  | unusable => []
  | utf8 _ stored _ => 1 :: Bytes.u2 stored.length.toUInt16 ++ stored
  | integer value => 3 :: Bytes.u4 value.toUInt32
  | float bits => 4 :: Bytes.u4 bits
  | long value => 5 :: Bytes.u8 value.toUInt64
  | double bits => 6 :: Bytes.u8 bits
  | classRef name => 7 :: Bytes.u2 name
  | string text => 8 :: Bytes.u2 text
  | fieldRef owner nameType => 9 :: Bytes.u2 owner ++ Bytes.u2 nameType
  | methodRef owner nameType => 10 :: Bytes.u2 owner ++ Bytes.u2 nameType
  | interfaceMethodRef owner nameType => 11 :: Bytes.u2 owner ++ Bytes.u2 nameType
  | nameAndType name descriptor => 12 :: Bytes.u2 name ++ Bytes.u2 descriptor
  | methodHandle kind reference => 15 :: Bytes.u1 kind ++ Bytes.u2 reference
  | methodType descriptor => 16 :: Bytes.u2 descriptor
  | dynamic bootstrap nameType => 17 :: Bytes.u2 bootstrap ++ Bytes.u2 nameType
  | invokeDynamic bootstrap nameType => 18 :: Bytes.u2 bootstrap ++ Bytes.u2 nameType
  | moduleRef name => 19 :: Bytes.u2 name
  | packageRef name => 20 :: Bytes.u2 name

open Reader in
def read : Reader PoolEntry := do
  let tag ← u1
  match tag with
  | 1 =>
    let stored ← take (← u2).toNat
    let decoded ← ModifiedUtf8.decode stored
    return utf8 decoded.text stored decoded.exact
  | 3 => return integer (← u4).toInt32
  | 4 => return float (← u4)
  | 5 => return long (← u8).toInt64
  | 6 => return double (← u8)
  | 7 => return classRef (← u2)
  | 8 => return string (← u2)
  | 9 => return fieldRef (← u2) (← u2)
  | 10 => return methodRef (← u2) (← u2)
  | 11 => return interfaceMethodRef (← u2) (← u2)
  | 12 => return nameAndType (← u2) (← u2)
  | 15 => return methodHandle (← u1) (← u2)
  | 16 => return methodType (← u2)
  | 17 => return dynamic (← u2) (← u2)
  | 18 => return invokeDynamic (← u2) (← u2)
  | 19 => return moduleRef (← u2)
  | 20 => return packageRef (← u2)
  | _ => throw (.invalidPoolTag tag)

def readMany : Nat → Reader (List PoolEntry)
  | 0 => pure []
  | slots + 1 => do
    let entry ← read
    if entry.isWide then
      match slots with
      | 0 => throw .poolOverrun
      | slots + 1 => return entry :: unusable :: (← readMany slots)
    else
      return entry :: (← readMany slots)

end PoolEntry

structure BootstrapEntry where
  method : UInt16
  arguments : List UInt16
  deriving DecidableEq, Repr, Inhabited

/-- The entry at position zero is unusable. -/
structure ConstantPool where
  entries : Array PoolEntry
  bootstrap : Array BootstrapEntry
  deriving DecidableEq, Repr, Inhabited

namespace ConstantPool

def empty : ConstantPool := ⟨#[.unusable], #[]⟩

def read : Reader ConstantPool := do
  let count ← Reader.u2
  let entries ← PoolEntry.readMany (count.toNat - 1)
  return ⟨(PoolEntry.unusable :: entries).toArray, #[]⟩

def encode (pool : ConstantPool) : Bytes :=
  Bytes.u2 pool.entries.size.toUInt16 ++ pool.entries.toList.flatMap PoolEntry.encode

def entry (pool : ConstantPool) (index : UInt16) : Except FormatError PoolEntry :=
  match pool.entries[index.toNat]? with
  | none | some .unusable => .error (.invalidPoolIndex index)
  | some entry => .ok entry

def mismatch {α : Type} (index : UInt16) (expected : String) (found : PoolEntry) :
    Except FormatError α :=
  .error (.poolKindMismatch index expected found.kind)

def utf8 (pool : ConstantPool) (index : UInt16) : Except FormatError String := do
  match ← pool.entry index with
  | .utf8 text _ _ => return text
  | found => mismatch index "Utf8" found

def className (pool : ConstantPool) (index : UInt16) : Except FormatError String := do
  match ← pool.entry index with
  | .classRef name => pool.utf8 name
  | found => mismatch index "Class" found

def utf8? (pool : ConstantPool) (index : UInt16) : Except FormatError (Option String) :=
  if index = 0 then .ok none else some <$> pool.utf8 index

def className? (pool : ConstantPool) (index : UInt16) : Except FormatError (Option String) :=
  if index = 0 then .ok none else some <$> pool.className index

def integer (pool : ConstantPool) (index : UInt16) : Except FormatError Int32 := do
  match ← pool.entry index with
  | .integer value => return value
  | found => mismatch index "Integer" found

def float (pool : ConstantPool) (index : UInt16) : Except FormatError UInt32 := do
  match ← pool.entry index with
  | .float bits => return bits
  | found => mismatch index "Float" found

def long (pool : ConstantPool) (index : UInt16) : Except FormatError Int64 := do
  match ← pool.entry index with
  | .long value => return value
  | found => mismatch index "Long" found

def double (pool : ConstantPool) (index : UInt16) : Except FormatError UInt64 := do
  match ← pool.entry index with
  | .double bits => return bits
  | found => mismatch index "Double" found

def nameAndType (pool : ConstantPool) (index : UInt16) : Except FormatError (String × String) := do
  match ← pool.entry index with
  | .nameAndType name descriptor => return (← pool.utf8 name, ← pool.utf8 descriptor)
  | found => mismatch index "NameAndType" found

def memberRef (pool : ConstantPool) (index : UInt16) : Except FormatError (MemberRef × Bool) := do
  let (owner, nameType, isInterface) ← match ← pool.entry index with
    | .fieldRef owner nameType | .methodRef owner nameType => pure (owner, nameType, false)
    | .interfaceMethodRef owner nameType => pure (owner, nameType, true)
    | found => mismatch index "Fieldref or Methodref" found
  let owner ← pool.className owner
  let (name, descriptor) ← pool.nameAndType nameType
  return (⟨owner, name, descriptor⟩, isInterface)

def methodHandle (pool : ConstantPool) (index : UInt16) : Except FormatError MethodHandle := do
  match ← pool.entry index with
  | .methodHandle kind reference =>
    let (member, isInterface) ← pool.memberRef reference
    return ⟨kind, member, isInterface⟩
  | found => mismatch index "MethodHandle" found

def bootstrapMethod (pool : ConstantPool) (argument : UInt16 → Except FormatError Constant)
    (row : UInt16) : Except FormatError BootstrapMethod := do
  match pool.bootstrap[row.toNat]? with
  | none => throw (.invalidBootstrapIndex row)
  | some entry =>
    let method ← pool.methodHandle entry.method
    let arguments ← entry.arguments.mapM argument
    return ⟨method, arguments⟩

/-- Dynamic constants may be arguments of one another, but not deeper than this. -/
def dynamicDepth : Nat := 64

def constantWithin (pool : ConstantPool) : Nat → UInt16 → Except FormatError Constant
  | depth, index => do
    match ← pool.entry index with
    | .integer value => return .integer value
    | .float bits => return .float bits
    | .long value => return .long value
    | .double bits => return .double bits
    | .string text => return .string (← pool.utf8 text)
    | .classRef name => return .classRef (← pool.utf8 name)
    | .methodType descriptor => return .methodType (← pool.utf8 descriptor)
    | .methodHandle .. => return .methodHandle (← pool.methodHandle index)
    | .dynamic row nameType =>
      match depth with
      | 0 => throw (.dynamicNesting index)
      | depth + 1 =>
        let (name, descriptor) ← pool.nameAndType nameType
        let bootstrap ← pool.bootstrapMethod (pool.constantWithin depth) row
        return .dynamic name descriptor bootstrap
    | found => mismatch index "loadable constant" found

def constant (pool : ConstantPool) (index : UInt16) : Except FormatError Constant :=
  pool.constantWithin dynamicDepth index

def invokeDynamic (pool : ConstantPool) (index : UInt16) :
    Except FormatError (String × String × BootstrapMethod) := do
  match ← pool.entry index with
  | .invokeDynamic row nameType =>
    let (name, descriptor) ← pool.nameAndType nameType
    let bootstrap ← pool.bootstrapMethod pool.constant row
    return (name, descriptor, bootstrap)
  | found => mismatch index "InvokeDynamic" found

/-! Operands of the other structures: an index into the pool, followed at once. -/

def takeUtf8 (pool : ConstantPool) : Reader String := do pool.utf8 (← Reader.u2)

def takeClassName (pool : ConstantPool) : Reader String := do pool.className (← Reader.u2)

def takeUtf8? (pool : ConstantPool) : Reader (Option String) := do pool.utf8? (← Reader.u2)

def takeClassName? (pool : ConstantPool) : Reader (Option String) := do
  pool.className? (← Reader.u2)

end ConstantPool

end ClassRenaming
