import ClassRenaming.Descriptor

/-!
Generic signatures: the types of a class, method or field with their type arguments, their printed
form, and the class names in them. A class type is a list of segments; the first carries a full
name, each later one the simple name of a class nested in the one before.
-/

namespace ClassRenaming

inductive TypeArgument (α : Type) where
  | any
  | exact (bound : α)
  | extends (bound : α)
  | super (bound : α)
  deriving Repr, Inhabited

structure Segment (α : Type) where
  name : String
  arguments : List (TypeArgument α)
  deriving Repr, Inhabited

inductive TypeSignature where
  | base (type : BaseType)
  | array (component : TypeSignature)
  | variable (name : String)
  | class (segments : List (Segment TypeSignature))
  deriving Inhabited

abbrev ClassType := List (Segment TypeSignature)

structure TypeParameter where
  name : String
  classBound : Option TypeSignature
  interfaceBounds : List TypeSignature
  deriving Inhabited

structure ClassSignature where
  typeParameters : List TypeParameter
  superclass : ClassType
  interfaces : List ClassType
  deriving Inhabited

structure MethodSignature where
  typeParameters : List TypeParameter
  parameters : List TypeSignature
  result : Option TypeSignature
  throws : List TypeSignature
  deriving Inhabited

def ClassType.internalName (type : ClassType) : String :=
  String.intercalate "$" (type.map Segment.name)

mutual

def TypeSignature.chars : TypeSignature → List Char
  | .base type => [type.letter]
  | .array component => '[' :: component.chars
  | .variable name => 'T' :: name.toList ++ [';']
  | .class segments => 'L' :: TypeSignature.segmentChars segments ++ [';']

def TypeSignature.segmentChars : List (Segment TypeSignature) → List Char
  | [] => []
  | [⟨name, arguments⟩] => name.toList ++ TypeSignature.bracketed arguments
  | ⟨name, arguments⟩ :: rest =>
    name.toList ++ TypeSignature.bracketed arguments ++ '.' :: TypeSignature.segmentChars rest

def TypeSignature.bracketed : List (TypeArgument TypeSignature) → List Char
  | [] => []
  | first :: rest => '<' :: TypeSignature.argumentChars first ++
      TypeSignature.argumentsChars rest ++ ['>']

def TypeSignature.argumentsChars : List (TypeArgument TypeSignature) → List Char
  | [] => []
  | first :: rest => TypeSignature.argumentChars first ++ TypeSignature.argumentsChars rest

def TypeSignature.argumentChars : TypeArgument TypeSignature → List Char
  | .any => ['*']
  | .exact bound => bound.chars
  | .extends bound => '+' :: bound.chars
  | .super bound => '-' :: bound.chars

end

def ClassType.chars (type : ClassType) : List Char := (TypeSignature.class type).chars

def TypeParameter.chars (parameter : TypeParameter) : List Char :=
  parameter.name.toList ++ ':' :: (parameter.classBound.elim [] TypeSignature.chars) ++
    parameter.interfaceBounds.flatMap fun bound => ':' :: bound.chars

def TypeParameter.listChars : List TypeParameter → List Char
  | [] => []
  | parameters => '<' :: parameters.flatMap TypeParameter.chars ++ ['>']

def ClassSignature.chars (signature : ClassSignature) : List Char :=
  TypeParameter.listChars signature.typeParameters ++ signature.superclass.chars ++
    signature.interfaces.flatMap ClassType.chars

def MethodSignature.chars (signature : MethodSignature) : List Char :=
  TypeParameter.listChars signature.typeParameters ++
    '(' :: signature.parameters.flatMap TypeSignature.chars ++
    ')' :: signature.result.elim ['V'] TypeSignature.chars ++
    signature.throws.flatMap fun thrown => '^' :: thrown.chars

def TypeSignature.render (signature : TypeSignature) : String := String.ofList signature.chars

def ClassSignature.render (signature : ClassSignature) : String := String.ofList signature.chars

def MethodSignature.render (signature : MethodSignature) : String := String.ofList signature.chars

/-! Class names, in the order in which they are printed. -/

section Names

variable {m : Type → Type} [Monad m] (f : String → m String)

mutual

def TypeSignature.mapNamesM : TypeSignature → m TypeSignature
  | .base type => pure (.base type)
  | .array component => do return .array (← component.mapNamesM)
  | .variable name => pure (.variable name)
  | .class segments => do return .class (← TypeSignature.segmentsMapM segments)

def TypeSignature.segmentsMapM : List (Segment TypeSignature) → m (List (Segment TypeSignature))
  | [] => pure []
  | ⟨name, arguments⟩ :: rest => do
    let name ← f name
    let arguments ← TypeSignature.argumentsMapM arguments
    let rest ← TypeSignature.segmentsMapM rest
    return ⟨name, arguments⟩ :: rest

def TypeSignature.argumentsMapM :
    List (TypeArgument TypeSignature) → m (List (TypeArgument TypeSignature))
  | [] => pure []
  | first :: rest => do
    let first ← TypeSignature.argumentMapM first
    let rest ← TypeSignature.argumentsMapM rest
    return first :: rest

def TypeSignature.argumentMapM : TypeArgument TypeSignature → m (TypeArgument TypeSignature)
  | .any => pure .any
  | .exact bound => do return .exact (← bound.mapNamesM)
  | .extends bound => do return .extends (← bound.mapNamesM)
  | .super bound => do return .super (← bound.mapNamesM)

end

def TypeParameter.mapNamesM (parameter : TypeParameter) : m TypeParameter := do
  let classBound ← parameter.classBound.mapM (TypeSignature.mapNamesM f)
  let interfaceBounds ← parameter.interfaceBounds.mapM (TypeSignature.mapNamesM f)
  return { parameter with classBound, interfaceBounds }

def ClassSignature.mapNamesM (signature : ClassSignature) : m ClassSignature := do
  let typeParameters ← signature.typeParameters.mapM (TypeParameter.mapNamesM f)
  let superclass ← TypeSignature.segmentsMapM f signature.superclass
  let interfaces ← signature.interfaces.mapM (TypeSignature.segmentsMapM f)
  return { typeParameters, superclass, interfaces }

def MethodSignature.mapNamesM (signature : MethodSignature) : m MethodSignature := do
  let typeParameters ← signature.typeParameters.mapM (TypeParameter.mapNamesM f)
  let parameters ← signature.parameters.mapM (TypeSignature.mapNamesM f)
  let result ← signature.result.mapM (TypeSignature.mapNamesM f)
  let throws ← signature.throws.mapM (TypeSignature.mapNamesM f)
  return { typeParameters, parameters, result, throws }

end Names

end ClassRenaming
