import ClassRenaming.ClassSource.Platform
import ClassRenaming.Text.Quoted

/-!
The entries of a container, relocated and dumped. Entries are worked on side by side, so it is left
open whose turn comes when. Every entry keeps its place; a class that cannot be relocated keeps its
bytes and is counted, and a dump that fails stops nothing.
-/

namespace ClassRenaming

/-! A directory that changed classes are written into, each under its own name. A name that would lead
elsewhere is refused. -/

inductive DumpError where
  | suspiciousName (name : String)
  | io
  deriving DecidableEq, Repr, Inhabited

def DumpError.message? : DumpError → Option String
  | suspiciousName name => some ("refusing to dump suspicious module name " ++ quoted name)
  | io => none

namespace Dump

def isSuspicious (name : String) : Bool :=
  (Path.segments name).any fun segment => Path.isIdle segment || segment == ".."

def directoryFor (root name : String) : String := (Path.segments name).dropLast.foldl Path.join root

def pathFor (root name : String) : String :=
  Path.join (directoryFor root name)
    ((Path.segments name).getLast?.getD "" ++ ArchiveEntry.classSuffix)

def write (tree : FileTree) (root name : String) (bytes : Bytes) : Except DumpError FileTree :=
  if isSuspicious name then .error (.suspiciousName name)
  else
    match tree.makeDirectory (directoryFor root name) >>= (·.write (pathFor root name) bytes) with
    | .ok tree => .ok tree
    | .error _ => .error .io

end Dump

structure Job where
  table : Renaming
  options : RelocationOptions
  classpath : List ClasspathEntry
  /-- Classes that are asked for after all others. -/
  platform : ClassSource
  /-- The directory that changed classes are dumped into. -/
  dump : Option String

/-- Between its two turns an entry is relocated, but its class does not lie in the dump yet. -/
inductive WorkStage where
  | waiting
  | relocated (outcome : Except RelocationError Relocated)
  | settled (outcome : Except RelocationError Relocated)
  deriving Inhabited

structure WorkItem where
  entry : ArchiveEntry
  stage : WorkStage
  deriving Inhabited

structure SettledEntry where
  entry : ArchiveEntry
  changed : Bool
  deriving DecidableEq, Repr, Inhabited

namespace WorkItem

def outcome? (item : WorkItem) : Option (Except RelocationError Relocated) :=
  match item.stage with
  | .waiting => none
  | .relocated outcome | .settled outcome => some outcome

def settle (item : WorkItem) : SettledEntry :=
  match item.outcome? with
  | some (.ok relocated) =>
    { entry := { item.entry with bytes := relocated.bytes }, changed := relocated.changed }
  | _ => { entry := item.entry, changed := false }

end WorkItem

structure Summary where
  seen : Nat
  changed : Nat
  failed : Nat
  deriving DecidableEq, Repr, Inhabited

namespace Summary

def zero : Summary := { seen := 0, changed := 0, failed := 0 }

def text (summary : Summary) : String :=
  "classes seen: " ++ toString summary.seen ++ ", changed: " ++ toString summary.changed ++
    ", failed: " ++ toString summary.failed

def count (summary : Summary) (item : WorkItem) : Summary :=
  { seen := summary.seen + (if item.entry.className?.isSome then 1 else 0)
    changed := summary.changed + (if item.settle.changed then 1 else 0)
    failed := summary.failed + (if item.outcome?.any (·.toOption.isNone) then 1 else 0) }

def ofItems (items : List WorkItem) : Summary := items.foldl count zero

end Summary

structure Progress where
  tree : FileTree
  /-- Finds classes among the files as they are in `tree`. -/
  relocator : Relocator
  cache : MetadataCache
  /-- The entries in their order. -/
  items : Array WorkItem

namespace Progress

def relocate (progress : Progress) (entry : ArchiveEntry) :
    Except RelocationError Relocated × MetadataCache :=
  (progress.relocator.relocateEntry entry).run.run progress.cache

def place (progress : Progress) (index : Nat) (entry : ArchiveEntry) (stage : WorkStage) : Progress :=
  { progress with items := progress.items.setIfInBounds index ⟨entry, stage⟩ }

end Progress

/-- Whose turn comes when, for any number of entries. The turns of several entries may be mixed in any
way, as when they are worked on by several threads. -/
structure Schedule where
  turns : Nat → List Nat
  /-- Every entry has its two turns. -/
  complete : ∀ count index, index < count → 2 ≤ (turns count).count index

def Schedule.inOrder : Schedule where
  turns count := (List.range count).flatMap fun index => [index, index]
  complete count index inside := by
    have turn : [index, index].Sublist ((List.range count).flatMap fun index => [index, index]) :=
      List.sublist_flatten_of_mem (List.mem_map.2 ⟨index, List.mem_range.2 inside, rfl⟩)
    simpa using turn.count_le index

namespace Job

def source (job : Job) (tree : FileTree) : ClassSource :=
  .ofList (job.classpath.map (·.source tree) ++ [job.platform])

def relocator (job : Job) (tree : FileTree) : Relocator :=
  { table := job.table
    hierarchy := { source := job.source tree, table := some job.table }
    options := job.options }

def start (job : Job) (tree : FileTree) (entries : List ArchiveEntry) : Progress :=
  { tree, relocator := job.relocator tree, cache := .empty,
    items := (entries.map fun entry => ⟨entry, .waiting⟩).toArray }

/-- Dumps a class that changed, if it is to be. Later turns may find it there. -/
def dumpEntry (job : Job) (progress : Progress) (entry : ArchiveEntry)
    (outcome : Except RelocationError Relocated) : Progress :=
  match job.dump, outcome.toOption.bind entry.record? with
  | some root, some (name, bytes) =>
    match Dump.write progress.tree root name bytes with
    | .ok tree => { progress with tree, relocator := job.relocator tree }
    | .error _ => progress
  | _, _ => progress

def takeTurn (job : Job) (progress : Progress) (index : Nat) : Progress :=
  match progress.items[index]? with
  | some ⟨entry, .waiting⟩ =>
    let (outcome, cache) := progress.relocate entry
    { progress.place index entry (.relocated outcome) with cache }
  | some ⟨entry, .relocated outcome⟩ =>
    (job.dumpEntry progress entry outcome).place index entry (.settled outcome)
  | _ => progress

def run (job : Job) (progress : Progress) (turns : List Nat) : Progress :=
  turns.foldl job.takeTurn progress

def finish (job : Job) (schedule : Schedule) (tree : FileTree) (entries : List ArchiveEntry) :
    Progress :=
  job.run (job.start tree entries) (schedule.turns entries.length)

end Job

end ClassRenaming
