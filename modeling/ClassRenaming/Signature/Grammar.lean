import ClassRenaming.Signature.Basic

/-!
The three grammars of generic signatures, one for classes, one for methods and one for fields and
local variables. A text outside its grammar is refused as a whole. Each rule takes what it derives
off the front of the text. A step count bounds how deep the rules nest; among any three rules inside
one another at least one takes a character, so three steps for each character are enough.
-/

namespace ClassRenaming.Signature

def takeIdentifier (stop : Char → Bool) (text : List Char) : Option (String × List Char) :=
  match text.takeWhile (!stop ·), text.dropWhile (!stop ·) with
  | [], _ => none
  | _, [] => none
  | name, rest => some (String.ofList name, rest)

mutual

def takeType : Nat → List Char → Option (TypeSignature × List Char)
  | 0, _ => none
  | _ + 1, [] => none
  | steps + 1, '[' :: rest => do
    let (component, rest) ← takeType steps rest
    return (.array component, rest)
  | _ + 1, 'T' :: rest => do
    let (name, rest) ← takeIdentifier (· == ';') rest
    return (.variable name, rest.drop 1)
  | steps + 1, 'L' :: rest => do
    let (segments, rest) ← takeSegments steps rest
    return (.class segments, rest)
  | _ + 1, c :: rest => (BaseType.ofLetter? c).map fun type => (.base type, rest)

def takeSegments : Nat → List Char → Option (ClassType × List Char)
  | 0, _ => none
  | steps + 1, text => do
    let (name, rest) ← takeIdentifier (fun c => c == '<' || c == '.' || c == ';') text
    let (arguments, rest) ← takeArguments steps rest
    match rest with
    | '.' :: rest =>
      let (others, rest) ← takeSegments steps rest
      return (⟨name, arguments⟩ :: others, rest)
    | ';' :: rest => return ([⟨name, arguments⟩], rest)
    | _ => none

def takeArguments : Nat → List Char → Option (List (TypeArgument TypeSignature) × List Char)
  | 0, _ => none
  | _ + 1, [] => none
  | _ + 1, '<' :: '>' :: _ => none
  | steps + 1, '<' :: rest => takeArgumentList steps rest
  | _ + 1, rest => some ([], rest)

def takeArgumentList : Nat → List Char → Option (List (TypeArgument TypeSignature) × List Char)
  | 0, _ => none
  | _ + 1, '>' :: rest => some ([], rest)
  | steps + 1, '*' :: rest => do
    let (others, rest) ← takeArgumentList steps rest
    return (.any :: others, rest)
  | steps + 1, '+' :: rest => do
    let (bound, rest) ← takeReference steps rest
    let (others, rest) ← takeArgumentList steps rest
    return (.extends bound :: others, rest)
  | steps + 1, '-' :: rest => do
    let (bound, rest) ← takeReference steps rest
    let (others, rest) ← takeArgumentList steps rest
    return (.super bound :: others, rest)
  | steps + 1, rest => do
    let (bound, rest) ← takeReference steps rest
    let (others, rest) ← takeArgumentList steps rest
    return (.exact bound :: others, rest)

def takeReference : Nat → List Char → Option (TypeSignature × List Char)
  | 0, _ => none
  | steps + 1, text =>
    match text with
    | 'L' :: _ | 'T' :: _ | '[' :: _ => takeType steps text
    | _ => none

end

def takeBounds : Nat → List Char → Option (List TypeSignature × List Char)
  | 0, _ => none
  | _ + 1, [] => none
  | steps + 1, ':' :: rest => do
    let (bound, rest) ← takeReference steps rest
    let (others, rest) ← takeBounds steps rest
    return (bound :: others, rest)
  | _ + 1, rest => some ([], rest)

/-- A name, its class bound unless a second colon follows the first, and interface bounds. -/
def takeTypeParameter (steps : Nat) (text : List Char) : Option (TypeParameter × List Char) := do
  let (name, rest) ← takeIdentifier (· == ':') text
  match rest.drop 1 with
  | ':' :: rest =>
    let (interfaceBounds, rest) ← takeBounds steps (':' :: rest)
    return (⟨name, none, interfaceBounds⟩, rest)
  | rest =>
    let (classBound, rest) ← takeReference steps rest
    let (interfaceBounds, rest) ← takeBounds steps rest
    return (⟨name, some classBound, interfaceBounds⟩, rest)

def takeTypeParameterList : Nat → List Char → Option (List TypeParameter × List Char)
  | 0, _ => none
  | _ + 1, '>' :: rest => some ([], rest)
  | steps + 1, text => do
    let (first, rest) ← takeTypeParameter steps text
    let (others, rest) ← takeTypeParameterList steps rest
    return (first :: others, rest)

def takeTypeParameters (steps : Nat) : List Char → Option (List TypeParameter × List Char)
  | '<' :: '>' :: _ => none
  | '<' :: rest => takeTypeParameterList steps rest
  | rest => some ([], rest)

def takeClassType (steps : Nat) : List Char → Option (ClassType × List Char)
  | 'L' :: rest => takeSegments steps rest
  | _ => none

def allClassTypes : Nat → List Char → Option (List ClassType)
  | 0, _ => none
  | _ + 1, [] => some []
  | steps + 1, text => do
    let (first, rest) ← takeClassType steps text
    let others ← allClassTypes steps rest
    return first :: others

def takeParameters : Nat → List Char → Option (List TypeSignature × List Char)
  | 0, _ => none
  | _ + 1, ')' :: rest => some ([], rest)
  | steps + 1, text => do
    let (first, rest) ← takeType steps text
    let (others, rest) ← takeParameters steps rest
    return (first :: others, rest)

def takeResult (steps : Nat) : List Char → Option (Option TypeSignature × List Char)
  | 'V' :: rest => some (none, rest)
  | text => do
    let (type, rest) ← takeType steps text
    return (some type, rest)

def allThrown : Nat → List Char → Option (List TypeSignature)
  | 0, _ => none
  | _ + 1, [] => some []
  | steps + 1, '^' :: text =>
    match text with
    | 'L' :: _ | 'T' :: _ => do
      let (first, rest) ← takeType steps text
      let others ← allThrown steps rest
      return first :: others
    | _ => none
  | _ + 1, _ => none

def enough (text : List Char) : Nat := 3 * text.length + 3

def class? (text : List Char) : Option ClassSignature := do
  let (typeParameters, rest) ← takeTypeParameters (enough text) text
  let (superclass, rest) ← takeClassType (enough text) rest
  let interfaces ← allClassTypes (enough text) rest
  return { typeParameters, superclass, interfaces }

def method? (text : List Char) : Option MethodSignature := do
  let (typeParameters, rest) ← takeTypeParameters (enough text) text
  match rest with
  | '(' :: rest =>
    let (parameters, rest) ← takeParameters (enough text) rest
    let (result, rest) ← takeResult (enough text) rest
    let throws ← allThrown (enough text) rest
    return { typeParameters, parameters, result, throws }
  | _ => none

def field? (text : List Char) : Option TypeSignature :=
  match takeType (enough text) text with
  | some (type, []) => some type
  | _ => none

def orRefuse {α : Type} (text : String) : Option α → Except FormatError α
  | some value => .ok value
  | none => .error (.invalidSignature text)

def ofClass (text : String) : Except FormatError ClassSignature :=
  orRefuse text (class? text.toList)

def ofMethod (text : String) : Except FormatError MethodSignature :=
  orRefuse text (method? text.toList)

def ofField (text : String) : Except FormatError TypeSignature :=
  orRefuse text (field? text.toList)

end ClassRenaming.Signature
