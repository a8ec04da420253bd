import ClassRenaming.CommandLine.Run

/-!
The command line. The files that a run can look at are read into a tree, the run is worked out on
the tree, and what it changed there is written back.
-/

namespace ClassRenaming.Main

def usage : String :=
  "usage: rewrite INPUT [-o PATH] [--relocate SRC=DST]... [--fast] [--classpath PATH]... " ++
    "[--jdk DIR] [--dump DIR] [--config FILE]"

def orSame (tree : FileTree) (change : FileTree → Except PathFault FileTree) : FileTree :=
  (change tree).toOption.getD tree

/-- Adds the nearest directory above a path that is there. -/
partial def addAbove (tree : FileTree) (path : String) : IO FileTree := do
  let above := Path.parent path
  if ← ((← IO.currentDir) / above).isDir then return orSame tree (·.makeDirectory above)
  else if above = path then return tree
  else addAbove tree above

/-- Adds what is at an absolute path, with all that is below. -/
partial def add (tree : FileTree) (path : String) : IO FileTree := do
  let place := (← IO.currentDir) / path
  if ← place.isDir then
    (← place.readDir).foldlM (fun tree entry => add tree (Path.join path entry.fileName))
      (orSame tree (·.makeDirectory path))
  else
    let tree ← addAbove tree path
    if ← place.pathExists then
      let bytes ← IO.FS.readBinFile path
      return orSame tree (·.write path bytes.toList)
    else return tree

def launcherDirectory? : List String → IO (Option String)
  | [] => return none
  | directory :: rest => do
    let path := Path.join directory Platform.launcherName
    if ← ((← IO.currentDir) / path).pathExists then
      return some (Path.parent (toString (← IO.FS.realPath path)))
    else launcherDirectory? rest

def environment : IO Environment := do
  let directories := (splitOn ':' ((← IO.getEnv "PATH").getD "").toList).map String.ofList
  let launcher? ← launcherDirectory? directories
  return { javaHome := ← IO.getEnv "JAVA_HOME", searchPath := launcher?.toList }

def platformPaths (environment : Environment) : List String :=
  (environment.javaHome.toList ++ environment.searchPath.map Path.parent).flatMap Platform.places ++
    environment.searchPath.map (Path.join · Platform.launcherName)

def writeChanges (before after : FileTree) : IO Unit :=
  (after.filesBelow "/").toOption.getD [] |>.forM fun (name, bytes) => do
    let path := "/" ++ name
    if (before.read path).toOption ≠ some bytes then
      IO.FS.createDirAll (Path.parent path)
      IO.FS.writeBinFile path ⟨bytes.toArray⟩

def perform (arguments : Arguments) : IO UInt32 := do
  let here := toString (← IO.currentDir)
  let environment ← environment
  let platformPaths := if arguments.jdk.isSome then [] else platformPaths environment
  let working := (Path.segments here).filter (!Path.isIdle ·)
  let start := orSame { top := [], working } (·.makeDirectory here)
  let paths := arguments.paths ++ platformPaths
  let tree ← paths.foldlM (fun tree path => add tree (Path.join here path)) start
  let (outcome, after) := (arguments.run environment).run.run tree
  writeChanges tree after
  match outcome with
  | .ok summary => IO.println summary.text
  | .error cause => IO.eprintln cause.message
  return (exitCode outcome).toUInt32

end ClassRenaming.Main

def main (texts : List String) : IO UInt32 := do
  match ClassRenaming.Arguments.ofTexts? texts with
  | some arguments => ClassRenaming.Main.perform arguments
  | none =>
    IO.eprintln ClassRenaming.Main.usage
    return 2
