import ClassRenaming.ClassFile.Reading

/-!
What the type hierarchy knows of a type, and the memory of what was learned. The first entry for a
name stays: later ones change nothing.
-/

namespace ClassRenaming

def objectName : String := "java/lang/Object"

structure TypeMetadata where
  name : String
  superclass : Option String
  interfaces : List String
  isInterface : Bool
  deriving DecidableEq, Repr, Inhabited

namespace TypeMetadata

/-- A type without known bytes passes for a plain class right below the top. -/
def fallback (name : String) : TypeMetadata :=
  { name
    superclass := if name = objectName then none else some objectName
    interfaces := []
    isInterface := false }

def ofHeader (header : ClassHeader) : TypeMetadata :=
  { name := header.name
    superclass := header.superclass
    interfaces := header.interfaces
    isInterface := header.isInterface }

end TypeMetadata

structure MetadataCache where
  entries : List TypeMetadata
  deriving DecidableEq, Repr, Inhabited

namespace MetadataCache

def empty : MetadataCache := ⟨[]⟩

def find? (cache : MetadataCache) (name : String) : Option TypeMetadata :=
  cache.entries.find? (·.name == name)

def size (cache : MetadataCache) : Nat := cache.entries.length

def insert (cache : MetadataCache) (entry : TypeMetadata) : MetadataCache :=
  if (cache.find? entry.name).isSome then cache else ⟨entry :: cache.entries⟩

def weight (cache : MetadataCache) : Nat :=
  cache.entries.foldr (fun entry weight => 2 + entry.interfaces.length + weight) 0

theorem find?_empty (name : String) : empty.find? name = none := rfl

theorem find?_insert (cache : MetadataCache) (entry : TypeMetadata) (name : String) :
    (cache.insert entry).find? name =
      (cache.find? name).or (if entry.name = name then some entry else none) := by
  unfold insert
  by_cases same : entry.name = name
  · subst same
    cases h : cache.find? entry.name with
    | none => simp [find?]
    | some found => simp [h]
  · cases h : (cache.find? entry.name).isSome <;> simp [find?, same]

end MetadataCache

end ClassRenaming
