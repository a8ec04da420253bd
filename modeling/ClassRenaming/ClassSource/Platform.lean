import ClassRenaming.ClassSource.Classpath
import ClassRenaming.Text.Split

/-!
Platform classes from a JDK installation. The classes of an installation lie in module archives, in
an archive of signatures for every release, or in one runtime archive; the first of these that is
there is read. An installation can be named, or found by what is known of the environment.
-/

namespace ClassRenaming

structure Environment where
  javaHome : Option String
  /-- Directories that programs are looked for in. -/
  searchPath : List String
  deriving DecidableEq, Repr, Inhabited

def Environment.empty : Environment := { javaHome := none, searchPath := [] }

structure Platform where
  root : String
  /-- The number of archives that the classes come from. -/
  archives : Nat
  classes : Std.HashMap String Bytes

namespace Platform

def source (platform : Platform) : ClassSource := .ofMap platform.classes

/-! Where the archives of an installation are. -/

def modulesDirectory (root : String) : String := Path.join root "jmods"

def signatureArchive (root : String) : String := Path.join root "lib/ct.sym"

def runtimeArchives (root : String) : List String :=
  [Path.join root "jre/lib/rt.jar", Path.join root "lib/rt.jar"]

def runtimeArchive? (tree : FileTree) (root : String) : Option String :=
  (runtimeArchives root).find? tree.isFile

def isRoot (tree : FileTree) (path : String) : Bool :=
  tree.isDirectory (modulesDirectory path) || tree.isFile (signatureArchive path) ||
    (runtimeArchive? tree path).isSome

def places (path : String) : List String :=
  [path, Path.parent path].flatMap fun root =>
    modulesDirectory root :: signatureArchive root :: runtimeArchives root

/-- The installation at a path or, since a path may lead into it, right above. -/
def root? (tree : FileTree) (path : String) : Option String :=
  [path, Path.parent path].find? (isRoot tree)

/-! Names of classes in the archives. -/

def moduleClass? (name : String) : Option String := do
  let rest ← stripPrefix? "classes/".toList name.toList
  return String.ofList (← stripSuffix? ArchiveEntry.classSuffix.toList rest)

def runtimeClass? (name : String) : Option String :=
  (stripSuffix? ArchiveEntry.classSuffix.toList name.toList).map String.ofList

/-- A path without the directory of a module in front, which has a dot in its name as no package
at the top has. -/
def withoutModule (path : List Char) : List Char :=
  match splitFirst? '/' path with
  | some (first, rest) => if '.' ∈ first then rest else path
  | none => path

def signatureClass? (name : String) : Option (List Char × String) := do
  let path := (stripPrefix? "META-INF/sym/".toList name.toList).getD name.toList
  let stem ← stripSuffix? ".sig".toList path <|> stripSuffix? ArchiveEntry.classSuffix.toList path
  let (releases, rest) ← splitFirst? '/' stem
  guard (!releases.isEmpty && releases.all Char.isAlphanum)
  let chars := withoutModule rest
  guard !("module-info".toList.isSuffixOf chars)
  return (releases, String.ofList chars)

def newest (releases : List Char) : Nat := (releases.map Char.toNat).foldl max 0

/-! Reading the archives. -/

/-- Adds the classes of a module, where those of earlier modules stay. -/
def addModule (classes : Std.HashMap String Bytes) (entries : List ArchiveEntry) :
    Std.HashMap String Bytes :=
  entries.foldl (fun classes entry =>
    match moduleClass? entry.name with
    | some name => classes.insertIfNew name entry.bytes
    | none => classes) classes

def baseModule : String := "java.base.jmod"

/-- The module archives among the names in a directory. The base module comes first, so that its
classes stay. -/
def moduleNames (names : List String) : List String :=
  let modules := names.filter fun name => Path.extension? name = some "jmod"
  modules.filter (· = baseModule) ++ modules.filter (· ≠ baseModule)

def ofModules (tree : FileTree) (root : String) : Except SourceError Platform := do
  let directory := modulesDirectory root
  let names ←
    match tree.names directory with
    | .ok names => pure (moduleNames names)
    | .error _ => throw .io
  let modules ← names.mapM fun name => tree.readArchive (Path.join directory name)
  return { root, archives := modules.length, classes := modules.foldl addModule {} }

abbrev Dated := Std.HashMap String (Nat × Bytes)

def addSignature (classes : Dated) (entry : ArchiveEntry) : Dated :=
  match signatureClass? entry.name with
  | none => classes
  | some (releases, name) =>
    match classes[name]? with
    | some (seen, _) =>
      if newest releases ≤ seen then classes
      else classes.insert name (newest releases, entry.bytes)
    | none => classes.insert name (newest releases, entry.bytes)

def ofSignatures (tree : FileTree) (root : String) : Except SourceError Platform := do
  let entries ← tree.readArchive (signatureArchive root)
  let dated := entries.foldl addSignature {}
  return { root, archives := 1, classes := dated.map fun _ (_, bytes) => bytes }

def addRuntime (classes : Std.HashMap String Bytes) (entry : ArchiveEntry) :
    Std.HashMap String Bytes :=
  match runtimeClass? entry.name with
  | some name => classes.insert name entry.bytes
  | none => classes

def ofRuntime (tree : FileTree) (root path : String) : Except SourceError Platform := do
  let entries ← tree.readArchive path
  return { root, archives := 1, classes := entries.foldl addRuntime {} }

def ofPath (tree : FileTree) (path : String) : Except SourceError Platform :=
  match root? tree path with
  | none => .error (.unsupportedPlatform path)
  | some root =>
    if tree.isDirectory (modulesDirectory root) then ofModules tree root
    else if tree.isFile (signatureArchive root) then ofSignatures tree root
    else
      match runtimeArchive? tree root with
      | some archive => ofRuntime tree root archive
      | none => .error (.unsupportedPlatform root)

/-! Finding an installation. -/

def launcherName : String := "java"

def homeProperty? (output : String) : Option String :=
  (splitOn '\n' output.toList).findSome? fun line => do
    let (key, value) ← splitFirst? '=' (trimChars line)
    if trimmed (String.ofList key) = "java.home" then some (trimmed (String.ofList value)) else none

def launcherOutput? (tree : FileTree) (searchPath : List String) : Option String :=
  searchPath.findSome? fun directory =>
    match tree.find (Path.join directory launcherName) with
    | .ok (.program output) => some output
    | _ => none

def aboveLauncher? (tree : FileTree) (searchPath : List String) : Option String := do
  let directory ← searchPath.find? fun directory => tree.isFile (Path.join directory launcherName)
  match tree.locate (Path.join directory launcherName) with
  | .ok location =>
    if location.length < 2 then none
    else some ("/" ++ Path.joinSegments location.dropLast.dropLast)
  | .error _ => none

def discoverRoot? (tree : FileTree) (environment : Environment) : Option String :=
  environment.javaHome.bind (root? tree) <|>
  ((launcherOutput? tree environment.searchPath).bind homeProperty?).bind (root? tree) <|>
  (aboveLauncher? tree environment.searchPath).bind (root? tree)

def discover (tree : FileTree) (environment : Environment) : Except SourceError Platform :=
  match discoverRoot? tree environment with
  | some root => ofPath tree root
  | none => .error .platformNotFound

end Platform

end ClassRenaming
