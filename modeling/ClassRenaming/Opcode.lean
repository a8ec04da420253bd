/-!
Opcodes of the instruction set, and the format of the operands that follow each.
-/

namespace ClassRenaming.Opcode

abbrev nop : UInt8 := 0x00
abbrev bipush : UInt8 := 0x10
abbrev ldc : UInt8 := 0x12
abbrev ldcW : UInt8 := 0x13
abbrev iinc : UInt8 := 0x84
abbrev goto : UInt8 := 0xA7
abbrev jsr : UInt8 := 0xA8
abbrev ret : UInt8 := 0xA9
abbrev tableswitch : UInt8 := 0xAA
abbrev lookupswitch : UInt8 := 0xAB
abbrev ireturn : UInt8 := 0xAC
abbrev voidReturn : UInt8 := 0xB1
abbrev getstatic : UInt8 := 0xB2
abbrev putstatic : UInt8 := 0xB3
abbrev getfield : UInt8 := 0xB4
abbrev invokespecial : UInt8 := 0xB7
abbrev invokestatic : UInt8 := 0xB8
abbrev invokeinterface : UInt8 := 0xB9
abbrev invokedynamic : UInt8 := 0xBA
abbrev new : UInt8 := 0xBB
abbrev newarray : UInt8 := 0xBC
abbrev anewarray : UInt8 := 0xBD
abbrev athrow : UInt8 := 0xBF
abbrev checkcast : UInt8 := 0xC0
abbrev wide : UInt8 := 0xC4
abbrev multianewarray : UInt8 := 0xC5
abbrev gotoW : UInt8 := 0xC8
abbrev jsrW : UInt8 := 0xC9

inductive Format where
  | none
  | byte
  | short
  | narrowConstant
  | wideConstant
  | local
  | increment
  | branch
  | farBranch
  | tableSwitch
  | lookupSwitch
  | field
  | method
  | interfaceMethod
  | invokeDynamic
  | type
  | newArray
  | wide
  | multiArray
  deriving DecidableEq, Repr

def format (opcode : UInt8) : Option Format :=
  if opcode ≤ 0x0F then some .none
  else if opcode ≤ 0x10 then some .byte
  else if opcode ≤ 0x11 then some .short
  else if opcode ≤ 0x12 then some .narrowConstant
  else if opcode ≤ 0x14 then some .wideConstant
  else if opcode ≤ 0x19 then some .local
  else if opcode ≤ 0x35 then some .none
  else if opcode ≤ 0x3A then some .local
  else if opcode ≤ 0x83 then some .none
  else if opcode ≤ 0x84 then some .increment
  else if opcode ≤ 0x98 then some .none
  else if opcode ≤ 0xA8 then some .branch
  else if opcode ≤ 0xA9 then some .local
  else if opcode ≤ 0xAA then some .tableSwitch
  else if opcode ≤ 0xAB then some .lookupSwitch
  else if opcode ≤ 0xB1 then some .none
  else if opcode ≤ 0xB5 then some .field
  else if opcode ≤ 0xB8 then some .method
  else if opcode ≤ 0xB9 then some .interfaceMethod
  else if opcode ≤ 0xBA then some .invokeDynamic
  else if opcode ≤ 0xBB then some .type
  else if opcode ≤ 0xBC then some .newArray
  else if opcode ≤ 0xBD then some .type
  else if opcode ≤ 0xBF then some .none
  else if opcode ≤ 0xC1 then some .type
  else if opcode ≤ 0xC3 then some .none
  else if opcode ≤ 0xC4 then some .wide
  else if opcode ≤ 0xC5 then some .multiArray
  else if opcode ≤ 0xC7 then some .branch
  else if opcode ≤ 0xC9 then some .farBranch
  else none

end ClassRenaming.Opcode
