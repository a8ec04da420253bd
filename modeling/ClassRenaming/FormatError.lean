import ClassRenaming.Text.Quoted

/-!
What can be wrong with the bytes of a class file, and what can keep a class from having bytes. Each
cause carries what its message shows; the wording is in one place.
-/

namespace ClassRenaming

inductive FormatError where
  | unexpectedEnd
  | trailingBytes (count : Nat)
  | invalidMagic (found : UInt32)
  | invalidPoolIndex (index : UInt16)
  | invalidPoolTag (tag : UInt8)
  | poolKindMismatch (index : UInt16) (expected found : String)
  | invalidModifiedUtf8
  | invalidBootstrapIndex (index : UInt16)
  | dynamicNesting (index : UInt16)
  | invalidDescriptor (text : String)
  | invalidSignature (text : String)
  | malformed (part : String)
  | invalidOpcode (offset : Nat) (opcode : UInt8)
  | invalidCodeOffset (offset : Nat) (target : Int)
  | poolOverflow
  | bootstrapOverflow
  | branchTooFar (offset target : Nat)
  | codeTooLarge (size : Nat)
  | tableTooLong
  | textTooLong
  | poolOverrun
  | misplacedBootstrap
  | missingOperand
  | attributeTooLarge
  deriving DecidableEq, Repr, Inhabited

def FormatError.message : FormatError → String
  | unexpectedEnd => "unexpected end of input"
  | trailingBytes count => toString count ++ " trailing bytes after structure"
  | invalidMagic found => "invalid classfile magic: 0x" ++ Hex.padded 8 found.toNat
  | invalidPoolIndex index => "invalid constant pool index: " ++ toString index.toNat
  | invalidPoolTag tag => "invalid constant pool tag: " ++ toString tag.toNat
  | poolKindMismatch index expected found =>
    "constant pool type mismatch at index " ++ toString index.toNat ++ ": expected " ++ expected
      ++ ", found " ++ found
  | invalidModifiedUtf8 => "invalid modified UTF-8 in constant pool"
  | invalidBootstrapIndex index => "invalid bootstrap method index: " ++ toString index.toNat
  | dynamicNesting index =>
    "dynamic constant nesting at index " ++ toString index.toNat ++ " is too deep or cyclic"
  | invalidDescriptor text => "invalid descriptor: " ++ text
  | invalidSignature text => "invalid signature: " ++ text
  | malformed part => "malformed " ++ part ++ " attribute"
  | invalidOpcode offset opcode =>
    "invalid opcode 0x" ++ Hex.padded 2 opcode.toNat ++ " at offset " ++ toString offset
  | invalidCodeOffset offset target =>
    "instruction at offset " ++ toString offset ++ " refers to invalid code offset "
      ++ toString target
  | poolOverflow => "constant pool exceeds 65535 entries"
  | bootstrapOverflow => "bootstrap method table exceeds 65535 entries"
  | branchTooFar offset target =>
    "branch at offset " ++ toString offset ++ " cannot reach " ++ toString target
      ++ " with a 16-bit offset"
  | codeTooLarge size => "code attribute too large: " ++ toString size ++ " bytes"
  | tableTooLong => "table exceeds 65535 entries"
  | textTooLong => "string constant too long"
  | poolOverrun => "long or double constant overruns the constant pool"
  | misplacedBootstrap => "BootstrapMethods outside the class attribute list"
  | missingOperand => "missing constant pool operand"
  | attributeTooLarge => "attribute too large"

end ClassRenaming
