import ClassRenaming.ClassFile.Reading
import ClassRenaming.ClassSource.Basic
import ClassRenaming.Renaming
import ClassRenaming.Hierarchy.Metadata

/-!
The type hierarchy behind a source of classes, read one header at a time and remembered. A question
always has an answer: what cannot be found or read passes for a class right below the top.
-/

namespace ClassRenaming

/-! Common ancestors. The questions are asked of any table that gives the metadata of a name, and every
walk through it is bounded by a number of steps, since a table may have no end. -/

section Ancestors

variable {m : Type → Type} [Monad m] (metadata : String → m TypeMetadata)

/-- A name and the superclasses above it, up to the root or to a name seen before. -/
def superclassChain : Nat → List String → Option String → m (List String)
  | 0, _, _ => pure []
  | _ + 1, _, none => pure []
  | steps + 1, seen, some name =>
    if name ∈ seen then pure []
    else do
      let found ← metadata name
      let above ← superclassChain steps (name :: seen) found.superclass
      return name :: above

/-- The names on a stack and the interfaces they extend, each once, depth first in the order of
declaration. -/
def interfaceClosure : Nat → List String → List String → m (List String)
  | 0, _, _ => pure []
  | _ + 1, _, [] => pure []
  | steps + 1, seen, name :: stack =>
    if name ∈ seen then interfaceClosure steps seen stack
    else do
      let found ← metadata name
      let others ← interfaceClosure steps (name :: seen) (found.interfaces ++ stack)
      return name :: others

def firstShared (names others : List String) : String :=
  (names.find? (· ∈ others)).getD objectName

def commonSuperclass (steps : Nat) (a b : String) : m String := do
  let above ← superclassChain metadata steps [] (some a)
  return firstShared (← superclassChain metadata steps [] (some b)) above

def commonInterface (steps : Nat) (a b : String) : m String := do
  let names ← interfaceClosure metadata steps [] [a]
  return firstShared names (← interfaceClosure metadata steps [] [b])

/-- The type that values of two types have in common, as a verifier takes it: a class and an
interface share the top class alone. -/
def commonAncestor (steps : Nat) (a b : String) : m String :=
  if a = b then pure a
  else do
    let left ← metadata a
    let right ← metadata b
    match left.isInterface, right.isInterface with
    | true, true => commonInterface metadata steps a b
    | false, false => commonSuperclass metadata steps a b
    | _, _ => return objectName

end Ancestors

structure Hierarchy where
  source : ClassSource
  /-- Ancestors may be compiled against names from before the renaming. -/
  table : Option Renaming

abbrev Resolving := StateM MetadataCache

namespace Hierarchy

def rename (hierarchy : Hierarchy) (name : String) : String :=
  match hierarchy.table with
  | some table => table.binary name
  | none => name

def candidates (hierarchy : Hierarchy) (name : String) : List String :=
  name :: (hierarchy.table.map (·.undone name)).getD []

def header? (hierarchy : Hierarchy) (name : String) : Option ClassHeader :=
  match hierarchy.source.find name with
  | .ok (some bytes) => (ClassHeader.parse bytes).toOption
  | _ => none

/-- The metadata in a header found for `name`, whatever name the header gives. -/
def ofHeader (hierarchy : Hierarchy) (name : String) (header : ClassHeader) : TypeMetadata :=
  { name
    superclass := if name = objectName then none else header.superclass.map hierarchy.rename
    interfaces := header.interfaces.map hierarchy.rename
    isInterface := header.isInterface }

def load (hierarchy : Hierarchy) (name : String) : TypeMetadata :=
  match (hierarchy.candidates name).findSome? hierarchy.header? with
  | some header => hierarchy.ofHeader name header
  | none => .fallback name

def metadata (hierarchy : Hierarchy) (name : String) : Resolving TypeMetadata := do
  match (← get).find? name with
  | some found => return found
  | none =>
    let loaded := hierarchy.load name
    modify (·.insert loaded)
    return loaded

def seed (entry : TypeMetadata) : Resolving TypeMetadata := do
  modify (·.insert entry)
  return ((← get).find? entry.name).getD entry

/-- More names than a header can hold: a superclass and as many interfaces as two bytes count. -/
def namesPerHeader : Nat := 65537

/-- More steps than any walk takes: each looks at a name that a header or an entry holds. -/
def steps (hierarchy : Hierarchy) (cache : MetadataCache) : Nat :=
  let names := (hierarchy.source.contents.length + 1) * namesPerHeader + cache.weight + 2
  names * names

def commonAncestor (hierarchy : Hierarchy) (a b : String) : Resolving String := do
  ClassRenaming.commonAncestor hierarchy.metadata (hierarchy.steps (← get)) a b

end Hierarchy

end ClassRenaming
