import ClassRenaming.Archive.Zip
import ClassRenaming.ClassSource.Basic
import ClassRenaming.FileTree.Basic

/-!
Directories and archives in which classes lie under their names. A directory is looked at anew for
every class, so files that come to be there count; an archive is read once.
-/

namespace ClassRenaming

namespace ClassSource

def leadsDown (name : String) : Bool :=
  (Path.segments name).all fun segment => segment ≠ "" && segment ≠ ".."

/-- Classes as files below a directory. A file that is not there is no error; one that is there and
cannot be read is. -/
def ofDirectory (tree : FileTree) (root : String) : ClassSource where
  find name :=
    if leadsDown name then
      match tree.read (Path.join root (name ++ ArchiveEntry.classSuffix)) with
      | .ok bytes => .ok (some bytes)
      | .error .missing => .ok none
      | .error _ => .error .io
    else .ok none
  contents := tree.allContents
  mem_contents name bytes found := by
    split at found
    · split at found
      · next held readable =>
        simp only [Except.ok.injEq, Option.some.injEq] at found
        exact found ▸ FileTree.mem_allContents readable
      · simp at found
      · cases found
    · simp at found

def ofArchive (entries : List ArchiveEntry) : ClassSource :=
  .ofMap <| entries.foldl (fun classes entry =>
    match stripSuffix? ArchiveEntry.classSuffix.toList entry.name.toList with
    | some stem => classes.insert (String.ofList stem) entry.bytes
    | none => classes) {}

end ClassSource

/-- The members of an archive at a path. A directory opens as a file does, and is no archive. -/
def ArchiveFormat.readAt (format : ArchiveFormat) (tree : FileTree) (path : String) :
    Except SourceError (List ArchiveEntry) :=
  match tree.read path with
  | .ok bytes =>
    match format.read? bytes with
    | some entries => .ok entries
    | none => .error .notAnArchive
  | .error .isADirectory => .error .notAnArchive
  | .error _ => .error .io

def FileTree.readArchive (tree : FileTree) (path : String) : Except SourceError (List ArchiveEntry) :=
  Zip.format.readAt tree path

inductive ClasspathEntry where
  | directory (path : String)
  | archive (classes : ClassSource)

namespace ClasspathEntry

def archiveExtensions : List String := ["jar", "zip"]

def ofPath (tree : FileTree) (path : String) : Except SourceError ClasspathEntry :=
  if tree.isDirectory path then .ok (.directory path)
  else if (Path.extension? path).any fun ext => ext.toLower ∈ archiveExtensions then
    (tree.readArchive path).map fun entries => .archive (.ofArchive entries)
  else .error (.unsupportedEntry path)

def source (tree : FileTree) : ClasspathEntry → ClassSource
  | directory path => .ofDirectory tree path
  | archive classes => classes

end ClasspathEntry

end ClassRenaming
