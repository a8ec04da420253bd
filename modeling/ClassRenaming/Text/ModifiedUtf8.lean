import ClassRenaming.Bytes

/-!
Modified UTF-8, the text form of a class file: every UTF-16 unit is written on its own in one to
three bytes, and zero takes two. A unit that is half of no pair is no character; it is held as one
of the last 2048 characters of Unicode, so every stored text is a string and comes back as stored.
Reading and writing go through the units: bytes and units on one side, units and text on the other.
-/

namespace ClassRenaming.ModifiedUtf8

/-- The character that stands for the lone unit `0xD800`. -/
def escapeBase : Nat := 0x10F800

def continuation (bits : UInt16) : UInt8 := 0x80 ||| (bits &&& 0x3F).toUInt8

def unitBytes (unit : UInt16) : Bytes :=
  if unit ≠ 0 ∧ unit < 0x80 then [unit.toUInt8]
  else if unit < 0x800 then [(0xC0 : UInt8) ||| (unit >>> 6).toUInt8, continuation unit]
  else [(0xE0 : UInt8) ||| (unit >>> 12).toUInt8, continuation (unit >>> 6), continuation unit]

def isContinuation (b : UInt8) : Bool := b &&& 0xC0 == 0x80

def takeUnit : Bytes → Option ((UInt16 × Bool) × Bytes)
  | [] => none
  | a :: rest =>
    if a &&& 0x80 == 0 then some ((a.toUInt16, a != 0), rest)
    else if a &&& 0xE0 == 0xC0 then
      match rest with
      | b :: rest =>
        if isContinuation b then
          let unit := (a &&& 0x1F).toUInt16 <<< 6 ||| (b &&& 0x3F).toUInt16
          some ((unit, unit == 0 || unit ≥ 0x80), rest)
        else none
      | [] => none
    else if a &&& 0xF0 == 0xE0 then
      match rest with
      | b :: c :: rest =>
        if isContinuation b && isContinuation c then
          let unit := (a &&& 0x0F).toUInt16 <<< 12 ||| (b &&& 0x3F).toUInt16 <<< 6
            ||| (c &&& 0x3F).toUInt16
          some ((unit, unit ≥ 0x800), rest)
        else none
      | _ => none
    else none

def takeUnits : Nat → Bytes → Option (List (UInt16 × Bool))
  | _, [] => some []
  | 0, _ :: _ => none
  | steps + 1, bytes =>
    match takeUnit bytes with
    | some (unit, rest) => (takeUnits steps rest).map (unit :: ·)
    | none => none

def isHigh (unit : UInt16) : Bool := 0xD800 ≤ unit && unit < 0xDC00

def isLow (unit : UInt16) : Bool := 0xDC00 ≤ unit && unit < 0xE000

def pairChar (high low : UInt16) : Char :=
  Char.ofNat (0x10000 + (high.toNat - 0xD800) * 0x400 + (low.toNat - 0xDC00))

def unitChar (unit : UInt16) : Char :=
  if isHigh unit || isLow unit then Char.ofNat (escapeBase + (unit.toNat - 0xD800))
  else Char.ofNat unit.toNat

def isEscape (c : Char) : Bool := escapeBase ≤ c.toNat

def charUnits (c : Char) : List UInt16 :=
  if isEscape c then [(0xD800 + (c.toNat - escapeBase)).toUInt16]
  else if c.toNat < 0x10000 then [c.toNat.toUInt16]
  else
    [(0xD800 + (c.toNat - 0x10000) / 0x400).toUInt16,
      (0xDC00 + (c.toNat - 0x10000) % 0x400).toUInt16]

def unitsChars : List UInt16 → List Char
  | [] => []
  | [unit] => [unitChar unit]
  | first :: second :: rest =>
    if isHigh first && isLow second then pairChar first second :: unitsChars rest
    else unitChar first :: unitsChars (second :: rest)

def pairsKeep : List UInt16 → Bool
  | [] => true
  | [_] => true
  | first :: second :: rest =>
    if isHigh first && isLow second then !isEscape (pairChar first second) && pairsKeep rest
    else pairsKeep (second :: rest)

structure Decoded where
  text : String
  exact : Bool
  deriving DecidableEq, Repr

/-- A step takes at least one byte, so as many steps as bytes suffice. -/
def decode (bytes : Bytes) : Except FormatError Decoded :=
  match takeUnits bytes.length bytes with
  | none => .error .invalidModifiedUtf8
  | some marked =>
    let units := marked.map (·.1)
    .ok ⟨String.ofList (unitsChars units), marked.all (·.2) && pairsKeep units⟩

def encode (text : String) : Bytes :=
  text.toList.flatMap fun c => (charUnits c).flatMap unitBytes

end ClassRenaming.ModifiedUtf8
