import ClassRenaming.Text.Split

/-!
Numbers and dates of a TOML text. No setting is one of them, so it is enough to know which texts are
well formed.
-/

namespace ClassRenaming.Toml

def isScalarChar (c : Char) : Bool :=
  c.isAlphanum || c == '+' || c == '-' || c == '_' || c == '.' || c == ':'

def areDigits (isDigit : Char → Bool) : List Char → Bool
  | [] => false
  | [c] => isDigit c
  | c :: '_' :: rest | c :: rest => isDigit c && areDigits isDigit rest

def isDecimal (text : List Char) : Bool := areDigits Char.isDigit text

def isWhole (text : List Char) : Bool :=
  isDecimal text && (text.length == 1 || text.head? != some '0')

def digitValue (c : Char) : Nat :=
  if c.isDigit then c.toNat - '0'.toNat else c.toLower.toNat - 'a'.toNat + 10

def isDigitBelow (base : Nat) (c : Char) : Bool := c.isAlphanum && digitValue c < base

def valueOf (base : Nat) (text : List Char) : Nat :=
  (text.filter (· ≠ '_')).foldl (fun value c => base * value + digitValue c) 0

/-- Whole numbers have 64 bits, one of them for the sign. -/
def wholeLimit : Nat := 9223372036854775808

def withoutSign : List Char → List Char
  | '+' :: rest | '-' :: rest => rest
  | text => text

def isInteger : List Char → Bool
  | '0' :: 'x' :: rest => areDigits (isDigitBelow 16) rest && valueOf 16 rest < wholeLimit
  | '0' :: 'o' :: rest => areDigits (isDigitBelow 8) rest && valueOf 8 rest < wholeLimit
  | '0' :: 'b' :: rest => areDigits (isDigitBelow 2) rest && valueOf 2 rest < wholeLimit
  | '-' :: rest => isWhole rest && valueOf 10 rest ≤ wholeLimit
  | text => isWhole (withoutSign text) && valueOf 10 (withoutSign text) < wholeLimit

/-- Halfway from the greatest floating-point number to the power of two behind it. -/
def floatLimit : Nat := Nat.pow 2 1024 - Nat.pow 2 970

def floatLimitDigits : Nat := 309

def overflows (digits : Nat) (exponent : Int) : Bool :=
  let length := (Nat.toDigits 10 digits).length + exponent
  if digits = 0 ∨ length < floatLimitDigits then false
  else if floatLimitDigits < length then true
  else floatLimit * Nat.pow 10 (-exponent).toNat ≤ digits * Nat.pow 10 exponent.toNat

def floatParts (text : List Char) : List Char × Option (List Char) × Option (List Char) :=
  let isMark (c : Char) : Bool := c == 'e' || c == 'E'
  let mantissa := text.takeWhile (!isMark ·)
  let exponent :=
    match text.dropWhile (!isMark ·) with
    | [] => none
    | _ :: rest => some rest
  match splitFirst? '.' mantissa with
  | some (whole, fraction) => (whole, some fraction, exponent)
  | none => (mantissa, none, exponent)

/-- A number with a fraction, an exponent or both. Only negative ones may be too great. -/
def isFloat (text : List Char) : Bool :=
  let (whole, fraction, exponent) := floatParts (withoutSign text)
  let power : Int :=
    match exponent with
    | some ('-' :: digits) => -valueOf 10 digits
    | some digits => valueOf 10 (withoutSign digits)
    | none => 0
  let places := (fraction.getD []).filter (· ≠ '_')
  (fraction.isSome || exponent.isSome) && isWhole whole && fraction.all isDecimal &&
    exponent.all (fun digits => isDecimal (withoutSign digits)) &&
    (text.head? == some '-' || !overflows (valueOf 10 (whole ++ places)) (power - places.length))

def isSpecial (text : List Char) : Bool :=
  withoutSign text == "inf".toList || withoutSign text == "nan".toList

def isPair (least most : Nat) (text : List Char) : Bool :=
  text.length == 2 && text.all Char.isDigit && least ≤ valueOf 10 text && valueOf 10 text ≤ most

def isLeap (year : Nat) : Bool := year % 4 == 0 && (year % 100 != 0 || year % 400 == 0)

def daysIn (year month : Nat) : Nat :=
  if month = 2 then if isLeap year then 29 else 28
  else if month = 4 ∨ month = 6 ∨ month = 9 ∨ month = 11 then 30
  else 31

def isDate (text : List Char) : Bool :=
  match splitOn '-' text with
  | [year, month, day] =>
    year.length == 4 && year.all Char.isDigit && isPair 1 12 month &&
      isPair 1 (daysIn (valueOf 10 year) (valueOf 10 month)) day
  | _ => false

/-- A time of a day, perhaps with a fraction of a second. A minute may have a leap second. -/
def isTime (text : List Char) : Bool :=
  match splitOn ':' text with
  | [hour, minute, second] =>
    isPair 0 23 hour && isPair 0 59 minute &&
      match splitFirst? '.' second with
      | some (second, fraction) =>
        isPair 0 60 second && !fraction.isEmpty && fraction.all Char.isDigit
      | none => isPair 0 60 second
  | _ => false

def isOffset (text : List Char) : Bool :=
  match splitOn ':' text with
  | [hour, minute] => isPair 0 23 hour && isPair 0 59 minute
  | _ => false

def isZonedTime (text : List Char) : Bool :=
  let isZone (c : Char) : Bool := c == 'Z' || c == 'z' || c == '+' || c == '-'
  isTime (text.takeWhile (!isZone ·)) &&
    match text.dropWhile (!isZone ·) with
    | [] | ['Z'] | ['z'] => true
    | sign :: offset => (sign == '+' || sign == '-') && isOffset offset

def isDateTime (text : List Char) : Bool :=
  isDate text || isTime text ||
    (isDate (text.take 10) && (text[10]? == some 'T' || text[10]? == some 't') &&
      isZonedTime (text.drop 11))

/-- The text behind a number or a date. A single space may stand between a date and a time. -/
def skipScalar? (text : List Char) : Option (List Char) :=
  let scalar := text.takeWhile isScalarChar
  let rest := text.dropWhile isScalarChar
  if isDate scalar then
    match rest with
    | ' ' :: behind =>
      if isZonedTime (behind.takeWhile isScalarChar) then some (behind.dropWhile isScalarChar)
      else some rest
    | _ => some rest
  else if isInteger scalar || isFloat scalar || isSpecial scalar || isDateTime scalar then some rest
  else none

end ClassRenaming.Toml
