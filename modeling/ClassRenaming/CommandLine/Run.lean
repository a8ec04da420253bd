import ClassRenaming.Archive.Entry
import ClassRenaming.CommandLine.Arguments
import ClassRenaming.CommandLine.Job
import ClassRenaming.Settings.Reading

/-!
A run of the command line on a tree of files: a directory or an archive in, the same shape out. What
was done to the tree before an error stays done. The format of archives and the order in which entries
have their turns are left open up to the run as a whole.
-/

namespace ClassRenaming

inductive RunError where
  | settings (cause : SettingsError)
  | classpath (cause : SourceError)
  | platform (path : String) (cause : SourceError)
  | walk (path : String)
  | readArchive (path : String)
  | create (path : String)
  | write (path : String)
  | refusal (reason : String)
  | moveArchive (path : String)
  deriving DecidableEq, Repr, Inhabited

def RunError.message : RunError → String
  | settings cause => cause.message?.getD "failed to load settings"
  | classpath _ => "failed to open classpath"
  | platform path _ => "failed to open JDK " ++ path
  | walk path => "failed to walk " ++ path
  | readArchive path => "failed to read archive " ++ path
  | create path => "failed to create " ++ path
  | write path => "failed to write " ++ path
  | refusal reason => reason
  | moveArchive path => "failed to move archive into " ++ path

abbrev Run := ExceptT RunError (StateM FileTree)

namespace Run

def change (error : RunError) (step : FileTree → Except PathFault FileTree) : Run Unit := do
  match step (← get) with
  | .ok tree => set tree
  | .error _ => throw error

def relocateEntries (schedule : Schedule) (job : Job) (entries : List ArchiveEntry) :
    Run (Summary × List SettledEntry) := do
  let progress := job.finish schedule (← get) entries
  set progress.tree
  let items := progress.items.toList
  return (.ofItems items, items.map WorkItem.settle)

def writeEntry (output : String) (entry : ArchiveEntry) : Run Unit := do
  let target := Path.join output entry.name
  change (.create (Path.parent target)) (·.makeDirectory (Path.parent target))
  change (.write target) (·.write target entry.bytes)

/-- Relocates the files below a directory. In place, only what changed is written. -/
def relocateDirectory (schedule : Schedule) (job : Job) (input output : String) : Run Summary := do
  match (← get).filesBelow input with
  | .error _ => throw (.walk input)
  | .ok files =>
    let (summary, settled) ←
      relocateEntries schedule job <| files.map fun (name, bytes) => ⟨name, bytes⟩
    let written := settled.filter fun item => item.changed || !decide (Path.Same output input)
    written.forM fun item => writeEntry output item.entry
    return summary

def stagingPath (output : String) : String := Path.withExtension output "jar.partial"

/-- Relocates the files of an archive. The new one is written beside its place and moved there. -/
def relocateArchive (format : ArchiveFormat) (schedule : Schedule) (job : Job)
    (input output : String) : Run Summary := do
  match format.readAt (← get) input with
  | .error _ => throw (.readArchive input)
  | .ok entries =>
    let members := ArchiveMembers.separate 0 entries
    let (summary, settled) ← relocateEntries schedule job members.files
    let written := ArchiveMembers.weave 0 members.directories (settled.map SettledEntry.entry)
    let draft := format.write written
    change (.create (stagingPath output)) (·.write (stagingPath output) draft.bytes)
    match draft.refusal? with
    | some reason => throw (.refusal reason)
    | none =>
      change (.moveArchive output) (·.move (stagingPath output) output)
      return summary

def loadSettings (tree : FileTree) (arguments : Arguments) : Except SettingsError Settings := do
  let settings ← Settings.load tree arguments.settings
  let pairs ← arguments.pairs.mapM PairSetting.ofText
  let (settings, outcome) := settings.setPairs pairs
  outcome
  return if arguments.fast then { settings with strategy := .fast } else settings

/-- The input comes first, so that its own classes are found before others of their names. -/
def openClasspath (tree : FileTree) (arguments : Arguments) :
    Except SourceError (List ClasspathEntry) :=
  (arguments.input :: arguments.classpath).mapM (ClasspathEntry.ofPath tree)

/-- A platform that is named must be there; without a name there may be none. -/
def openPlatform (tree : FileTree) (environment : Environment) (arguments : Arguments) :
    Except RunError ClassSource :=
  match arguments.jdk with
  | some path => ((Platform.ofPath tree path).map Platform.source).mapError (.platform path)
  | none => .ok (((Platform.discover tree environment).toOption.map Platform.source).getD .empty)

def plan (tree : FileTree) (environment : Environment) (arguments : Arguments) :
    Except RunError Job := do
  let settings ← (loadSettings tree arguments).mapError .settings
  let classpath ← (openClasspath tree arguments).mapError .classpath
  let platform ← openPlatform tree environment arguments
  return { table := settings.table, options := settings.options, classpath, platform,
           dump := arguments.dump }

end Run

def Arguments.paths (arguments : Arguments) : List String :=
  arguments.settings.getD Settings.fileName :: arguments.input ::
    arguments.classpath ++ arguments.output.toList ++ arguments.dump.toList ++
    (arguments.jdk.map Platform.places).getD []

/-- Runs on zip archives and takes the entries in their order, which is one of the orders that may come
about; what is shown of a run is shown of every format and every schedule. -/
def Arguments.run (environment : Environment) (arguments : Arguments) : Run Summary := do
  let tree ← get
  let job ← liftExcept (Run.plan tree environment arguments)
  let output := arguments.output.getD arguments.input
  if tree.isDirectory arguments.input then
    Run.relocateDirectory .inOrder job arguments.input output
  else Run.relocateArchive Zip.format .inOrder job arguments.input output

def exitCode : Except RunError Summary → Nat
  | .ok summary => if summary.failed = 0 then 0 else 1
  | .error _ => 2

end ClassRenaming
