import ClassRenaming.Bytes
import Std.Data.HashMap

/-!
Places to look for the bytes of a class by its internal name. A source also lists all that it could
give, so that a walk through the classes in it has an end.
-/

namespace ClassRenaming

inductive SourceError where
  /-- A file that cannot be read. -/
  | io
  /-- A file that is no archive. -/
  | notAnArchive
  | unsupportedEntry (path : String)
  | unsupportedPlatform (path : String)
  | platformNotFound
  deriving DecidableEq, Repr, Inhabited

def SourceError.message? : SourceError → Option String
  | io | notAnArchive => none
  | unsupportedEntry path => some ("unsupported classpath entry " ++ path)
  | unsupportedPlatform path =>
    some (path ++ " has no jmods/, lib/ct.sym or rt.jar to read platform classes from")
  | platformNotFound =>
    some "could not discover a JDK installation (tried JAVA_HOME and `java` on PATH)"

structure ClassSource where
  find : String → Except SourceError (Option Bytes)
  /-- All bytes that can be found, of which each may have several names. -/
  contents : List Bytes
  mem_contents : ∀ name bytes, find name = .ok (some bytes) → bytes ∈ contents

namespace ClassSource

def empty : ClassSource where
  find _ := .ok none
  contents := []
  mem_contents := by simp

/-- Classes by name, of which the last of a name counts. -/
def ofClasses (classes : List (String × Bytes)) : ClassSource where
  find name := .ok (classes.reverse.lookup name)
  contents := classes.map (·.2)
  mem_contents name bytes found := by
    have found : classes.reverse.lookup name = some bytes := by simpa using found
    rw [List.lookup_eq_some_iff] at found
    obtain ⟨before, after, split, _⟩ := found
    have member : (name, bytes) ∈ classes.reverse := by simp [split]
    exact List.mem_map.2 ⟨(name, bytes), List.mem_reverse.1 member, rfl⟩

def ofMap (classes : Std.HashMap String Bytes) : ClassSource where
  find name := .ok classes[name]?
  contents := classes.toList.map (·.2)
  mem_contents name bytes found := by
    have found : classes[name]? = some bytes := by simpa using found
    exact List.mem_map.2 ⟨(name, bytes), Std.HashMap.mem_toList_iff_getElem?_eq_some.2 found, rfl⟩

def orElse (first second : ClassSource) : ClassSource where
  find name :=
    match first.find name with
    | .ok none => second.find name
    | other => other
  contents := first.contents ++ second.contents
  mem_contents name bytes found := by
    split at found
    · exact List.mem_append_right _ (second.mem_contents name bytes found)
    · exact List.mem_append_left _ (first.mem_contents name bytes found)

/-- The first source that has a class gives it; an error on the way there stands. -/
def ofList (sources : List ClassSource) : ClassSource := sources.foldr orElse empty

end ClassSource

end ClassRenaming
