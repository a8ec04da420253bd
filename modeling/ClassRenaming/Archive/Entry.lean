import ClassRenaming.Relocation
import ClassRenaming.Text.Split

/-!
Files inside a container, which is a directory tree or an archive. An entry whose name ends in
`.class` is a class named by its path; versions of a class for later releases lie below a path of
their own, which is no part of the name.
-/

namespace ClassRenaming

structure ArchiveEntry where
  /-- The path inside the container, parts separated by slashes. -/
  name : String
  bytes : Bytes
  deriving DecidableEq, Repr, Inhabited

namespace ArchiveEntry

def isDirectory (entry : ArchiveEntry) : Bool :=
  let last := entry.name.toList.getLast?
  last == some '/' || last == some '\\'

def classSuffix : String := ".class"

def versionsPath : String := "META-INF/versions/"

def className? (entry : ArchiveEntry) : Option String := do
  let stem ← stripSuffix? classSuffix.toList entry.name.toList
  match stripPrefix? versionsPath.toList stem with
  | some versioned => (splitFirst? '/' versioned).map fun (_, name) => String.ofList name
  | none => if stem.isEmpty then none else some (String.ofList stem)

def record? (entry : ArchiveEntry) (relocated : Relocated) : Option (String × Bytes) :=
  if relocated.changed then entry.className?.map fun name => (name, relocated.bytes) else none

end ArchiveEntry

def Relocator.relocateEntry (relocator : Relocator) (entry : ArchiveEntry) :
    Relocating Relocated :=
  match entry.className? with
  | some name => relocator.relocate (some name) entry.bytes
  | none => return .unchanged entry.bytes

/-! The members of an archive. A job sees the files alone, so directories are set aside, each with the
number of files in front of it, and put back among the files that the job leaves. How members become
bytes is left to the format of the archive. -/

structure ArchiveDirectory where
  /-- The number of files in front of it. -/
  before : Nat
  name : String
  deriving DecidableEq, Repr, Inhabited

def ArchiveDirectory.entry (directory : ArchiveDirectory) : ArchiveEntry := ⟨directory.name, []⟩

structure ArchiveMembers where
  directories : List ArchiveDirectory
  files : List ArchiveEntry
  deriving DecidableEq, Repr, Inhabited

namespace ArchiveMembers

def separate (before : Nat) : List ArchiveEntry → ArchiveMembers
  | [] => ⟨[], []⟩
  | entry :: rest =>
    if entry.isDirectory then
      let others := separate before rest
      { others with directories := ⟨before, entry.name⟩ :: others.directories }
    else
      let others := separate (before + 1) rest
      { others with files := entry :: others.files }

/-- Puts directories back among files that have `before` files in front of them. What is left of the
directories comes behind the last file. -/
def weave (before : Nat) (directories : List ArchiveDirectory) :
    List ArchiveEntry → List ArchiveEntry
  | [] => directories.map ArchiveDirectory.entry
  | file :: rest =>
    let here := directories.takeWhile (·.before == before)
    let later := directories.dropWhile (·.before == before)
    here.map ArchiveDirectory.entry ++ file :: weave (before + 1) later rest

end ArchiveMembers

structure ArchiveDraft where
  /-- What is in the file in the end, also after a refusal. -/
  bytes : Bytes
  /-- Why the writer took no more members. -/
  refusal? : Option String
  deriving DecidableEq, Repr, Inhabited

/-- A format of archives: a reader that delivers the members in their order, and a writer that appends
them one after another. -/
structure ArchiveFormat where
  read? : Bytes → Option (List ArchiveEntry)
  write : List ArchiveEntry → ArchiveDraft
  /-- What was written without a refusal is read back, every member in its place. -/
  read?_write : ∀ members, (write members).refusal? = none →
    read? (write members).bytes = some members

end ClassRenaming
