import ClassRenaming.FormatError

/-!
Byte strings with big-endian words. A reader takes a value off the front of a byte string and hands
back the rest, so what it does to a longer string can be said without positions.
-/

namespace ClassRenaming

abbrev Bytes := List UInt8

namespace Bytes

def u1 (value : UInt8) : Bytes := [value]

def u2 (value : UInt16) : Bytes := [(value >>> 8).toUInt8, value.toUInt8]

def u4 (value : UInt32) : Bytes :=
  [(value >>> 24).toUInt8, (value >>> 16).toUInt8, (value >>> 8).toUInt8, value.toUInt8]

def u8 (value : UInt64) : Bytes :=
  u4 (value >>> 32).toUInt32 ++ u4 value.toUInt32

def splitExact : Nat → Bytes → Option (Bytes × Bytes)
  | 0, rest => some ([], rest)
  | _ + 1, [] => none
  | count + 1, b :: rest =>
    match splitExact count rest with
    | some (taken, rest) => some (b :: taken, rest)
    | none => none

def tableCount (length : Nat) : Except FormatError Bytes :=
  if length < 65536 then .ok (u2 length.toUInt16) else .error .tableTooLong

end Bytes

abbrev Reader := StateT Bytes (Except FormatError)

namespace Reader

def u1 : Reader UInt8 := fun
  | a :: rest => .ok (a, rest)
  | [] => .error .unexpectedEnd

def u2 : Reader UInt16 := fun
  | a :: b :: rest => .ok (a.toUInt16 <<< 8 ||| b.toUInt16, rest)
  | _ => .error .unexpectedEnd

def u4 : Reader UInt32 := fun
  | a :: b :: c :: d :: rest =>
    .ok (a.toUInt32 <<< 24 ||| b.toUInt32 <<< 16 ||| c.toUInt32 <<< 8 ||| d.toUInt32, rest)
  | _ => .error .unexpectedEnd

def u8 : Reader UInt64 := do
  let high ← u4
  let low ← u4
  return high.toUInt64 <<< 32 ||| low.toUInt64

def take (count : Nat) : Reader Bytes := fun bytes =>
  match Bytes.splitExact count bytes with
  | some taken => .ok taken
  | none => .error .unexpectedEnd

def many {α : Type} : Nat → Reader α → Reader (List α)
  | 0, _ => pure []
  | count + 1, item => do
    let first ← item
    let rest ← many count item
    return first :: rest

def table {α : Type} (item : Reader α) : Reader (List α) := do
  let count ← u2
  many count.toNat item

def all {α : Type} (reader : Reader α) (bytes : Bytes) (leftover : Nat → FormatError) :
    Except FormatError α :=
  match reader bytes with
  | .error cause => .error cause
  | .ok (value, []) => .ok value
  | .ok (_, rest) => .error (leftover rest.length)

end Reader

end ClassRenaming
