import ClassRenaming.Attributes

/-!
A class file as two things: the class it describes, by value, and the constant pool it was read
with. The pool is kept because bytes that are not understood may hold indices into it.
-/

namespace ClassRenaming

structure ClassHeader where
  minor : UInt16
  major : UInt16
  access : UInt16
  name : String
  superclass : Option String
  interfaces : List String
  deriving DecidableEq, Repr, Inhabited

def ClassHeader.isInterface (header : ClassHeader) : Bool := header.access &&& 0x0200 != 0

structure ClassModel extends ClassHeader where
  fields : List Member
  methods : List Member
  attributes : List Attribute
  deriving Inhabited

structure ClassFile where
  model : ClassModel
  pool : ConstantPool
  deriving Inhabited

def ClassFile.ofModel (model : ClassModel) : ClassFile := ⟨model, .empty⟩

/-! Reading a class file. A first pass finds where everything ends by lengths alone, since attributes of
members need the bootstrap method table, which comes last; the second pass reads the attributes. -/

open Reader

def magic : UInt32 := 0xCAFEBABE

namespace ClassHeader

def read : Reader (ClassHeader × ConstantPool) := do
  let found ← u4
  if found ≠ magic then throw (.invalidMagic found)
  let minor ← u2
  let major ← u2
  let pool ← ConstantPool.read
  let access ← u2
  let name ← pool.takeClassName
  let superclass ← pool.takeClassName?
  let interfaces ← table pool.takeClassName
  return ({ minor, major, access, name, superclass, interfaces }, pool)

/-- The header at the front of a class file, whatever follows it. -/
def parse (bytes : Bytes) : Except FormatError ClassHeader :=
  (fun ((header, _), _) => header) <$> read bytes

end ClassHeader

structure RawAttribute where
  name : UInt16
  info : Bytes
  deriving DecidableEq, Repr, Inhabited

namespace RawAttribute

def read : Reader RawAttribute := do
  let name ← u2
  let length ← u4
  return ⟨name, ← take length.toNat⟩

/-- A record in an attribute takes bytes of it, so its length is depth enough. -/
def decode (pool : ConstantPool) (raw : RawAttribute) : Except FormatError Attribute := do
  Attribute.read pool (raw.info.length + 1) (← pool.utf8 raw.name) raw.info

end RawAttribute

structure RawMember where
  access : UInt16
  name : String
  descriptor : String
  attributes : List RawAttribute
  deriving DecidableEq, Repr, Inhabited

namespace RawMember

def read (pool : ConstantPool) : Reader RawMember := do
  let access ← u2
  let name ← pool.takeUtf8
  let descriptor ← pool.takeUtf8
  return { access, name, descriptor, attributes := ← table RawAttribute.read }

def decode (pool : ConstantPool) (raw : RawMember) : Except FormatError Member := do
  let attributes ← raw.attributes.mapM (RawAttribute.decode pool)
  return ⟨raw.access, raw.name, raw.descriptor, attributes⟩

end RawMember

def BootstrapEntry.read : Reader BootstrapEntry := do
  return ⟨← u2, ← table u2⟩

/-- The rows of the first bootstrap method table; without a table there are none. -/
def findBootstrap (pool : ConstantPool) :
    List RawAttribute → Except FormatError (List BootstrapEntry)
  | [] => .ok []
  | raw :: rest => do
    if (← pool.utf8 raw.name) = "BootstrapMethods" then
      (table BootstrapEntry.read).all raw.info fun _ => .malformed "BootstrapMethods"
    else findBootstrap pool rest

structure Skeleton where
  header : ClassHeader
  pool : ConstantPool
  fields : List RawMember
  methods : List RawMember
  attributes : List RawAttribute
  deriving DecidableEq, Repr, Inhabited

namespace Skeleton

def read : Reader Skeleton := do
  let (header, pool) ← ClassHeader.read
  let fields ← table (RawMember.read pool)
  let methods ← table (RawMember.read pool)
  let attributes ← table RawAttribute.read
  return { header, pool, fields, methods, attributes }

def decode (skeleton : Skeleton) : Except FormatError ClassFile := do
  let bootstrap ← findBootstrap skeleton.pool skeleton.attributes
  let pool := { skeleton.pool with bootstrap := bootstrap.toArray }
  let fields ← skeleton.fields.mapM (RawMember.decode pool)
  let methods ← skeleton.methods.mapM (RawMember.decode pool)
  let attributes ← skeleton.attributes.mapM (RawAttribute.decode pool)
  return ⟨{ skeleton.header with fields, methods, attributes }, pool⟩

end Skeleton

def ClassFile.parse (bytes : Bytes) : Except FormatError ClassFile := do
  (← Skeleton.read.all bytes .trailingBytes).decode

end ClassRenaming
