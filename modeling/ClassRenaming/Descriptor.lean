import ClassRenaming.FormatError

/-!
Field and method descriptors: the types of a member as text, with the number of local variable or
operand stack slots that their values take.
-/

namespace ClassRenaming

inductive BaseType where
  | byte | char | double | float | int | long | short | boolean
  deriving DecidableEq, Repr, Inhabited

namespace BaseType

def letter : BaseType → Char
  | byte => 'B'
  | char => 'C'
  | double => 'D'
  | float => 'F'
  | int => 'I'
  | long => 'J'
  | short => 'S'
  | boolean => 'Z'

def ofLetter? : Char → Option BaseType
  | 'B' => some byte
  | 'C' => some char
  | 'D' => some double
  | 'F' => some float
  | 'I' => some int
  | 'J' => some long
  | 'S' => some short
  | 'Z' => some boolean
  | _ => none

theorem letter_of_ofLetter? {c : Char} {base : BaseType} (h : ofLetter? c = some base) :
    base.letter = c := by
  unfold ofLetter? at h
  split at h <;> simp_all <;> subst h <;> rfl

end BaseType

inductive FieldType where
  | base (type : BaseType)
  | object (name : String)
  | array (component : FieldType)
  deriving DecidableEq, Repr, Inhabited

namespace FieldType

def slots : FieldType → Nat
  | base .long | base .double => 2
  | _ => 1

def chars : FieldType → List Char
  | base type => [type.letter]
  | object name => 'L' :: name.toList ++ [';']
  | array component => '[' :: component.chars

def render (type : FieldType) : String := String.ofList type.chars

end FieldType

structure MethodType where
  parameters : List FieldType
  result : Option FieldType
  deriving DecidableEq, Repr, Inhabited

namespace MethodType

def parameterSlots (type : MethodType) : Nat :=
  type.parameters.foldr (fun parameter slots => parameter.slots + slots) 0

def chars (type : MethodType) : List Char :=
  '(' :: type.parameters.flatMap FieldType.chars ++ ')' ::
    match type.result with
    | none => ['V']
    | some result => result.chars

def render (type : MethodType) : String := String.ofList type.chars

end MethodType

namespace Descriptor

def refuse {α : Type} (text : List Char) : Except FormatError α :=
  .error (.invalidDescriptor (String.ofList text))

def splitSemicolon : List Char → Option (List Char × List Char)
  | [] => none
  | ';' :: rest => some ([], rest)
  | c :: rest =>
    match splitSemicolon rest with
    | some (before, after) => some (c :: before, after)
    | none => none

def takeFieldType : List Char → Except FormatError (FieldType × List Char)
  | [] => refuse []
  | '[' :: rest =>
    match takeFieldType rest with
    | .ok (component, rest) => .ok (.array component, rest)
    | .error cause => .error cause
  | 'L' :: rest =>
    match splitSemicolon rest with
    | some (c :: name, after) => .ok (.object (String.ofList (c :: name)), after)
    | _ => refuse ('L' :: rest)
  | c :: rest =>
    match BaseType.ofLetter? c with
    | some type => .ok (.base type, rest)
    | none => refuse (c :: rest)

def fieldType (text : String) : Except FormatError FieldType :=
  match takeFieldType text.toList with
  | .ok (type, []) => .ok type
  | .ok (_, _ :: _) => .error (.invalidDescriptor text)
  | .error cause => .error cause

def takeParameters (text : String) :
    Nat → List Char → Except FormatError (List FieldType × List Char)
  | _, ')' :: rest => .ok ([], rest)
  | _, [] => .error (.invalidDescriptor text)
  | 0, _ :: _ => .error (.invalidDescriptor text)
  | steps + 1, rest => do
    let (first, rest) ← takeFieldType rest
    let (others, rest) ← takeParameters text steps rest
    return (first :: others, rest)

def takeResult : List Char → Except FormatError (Option FieldType × List Char)
  | 'V' :: rest => .ok (none, rest)
  | rest => do
    let (type, rest) ← takeFieldType rest
    return (some type, rest)

/-- A parameter has at least one character, so the length of the text bounds their number. -/
def methodType (text : String) : Except FormatError MethodType :=
  match text.toList with
  | '(' :: rest => do
    let (parameters, rest) ← takeParameters text rest.length rest
    let (result, rest) ← takeResult rest
    if rest.isEmpty then return ⟨parameters, result⟩ else throw (.invalidDescriptor text)
  | _ => .error (.invalidDescriptor text)

def internalName? (text : String) : Option String :=
  match text.toList with
  | 'L' :: rest =>
    if rest.getLast? = some ';' then some (String.ofList rest.dropLast) else none
  | _ => none

end Descriptor

end ClassRenaming
