import ClassRenaming.CommandLine.Run
import ClassRenaming.Proofs.DumpedClasses
import ClassRenaming.Proofs.MovedFiles

/-!
What a job makes of an archive. Directories are set aside with the number of files in front of them
and put back by it, so every member of the new archive stands where it stood in the old one: a
directory as it was, and a file with the bytes that its own relocation left. That holds of every
format that reads the members it has written, and of every order of the turns.
-/

namespace ClassRenaming

namespace ArchiveMembers

def filesOf (entries : List ArchiveEntry) : List ArchiveEntry :=
  entries.filter fun entry => !entry.isDirectory

theorem filesOf_append (front back : List ArchiveEntry) :
    filesOf (front ++ back) = filesOf front ++ filesOf back := List.filter_append ..

theorem filesOf_cons_directory {entry : ArchiveEntry} (directory : entry.isDirectory)
    (rest : List ArchiveEntry) : filesOf (entry :: rest) = filesOf rest := by
  simp [filesOf, directory]

theorem filesOf_cons_file {entry : ArchiveEntry} (file : ¬ entry.isDirectory)
    (rest : List ArchiveEntry) : filesOf (entry :: rest) = entry :: filesOf rest := by
  simp [filesOf, file]

variable {before : Nat} {entries : List ArchiveEntry} {directories : List ArchiveDirectory}

theorem files_separate (before : Nat) (entries : List ArchiveEntry) :
    (separate before entries).files = filesOf entries := by
  induction entries generalizing before with
  | nil => rfl
  | cons entry rest ih =>
    by_cases directory : entry.isDirectory
    · simp [separate, directory, filesOf_cons_directory, ih]
    · simp [separate, directory, filesOf_cons_file, ih]

theorem le_before_of_mem {directory : ArchiveDirectory}
    (member : directory ∈ (separate before entries).directories) : before ≤ directory.before := by
  induction entries generalizing before with
  | nil => simp [separate] at member
  | cons entry rest ih =>
    by_cases here : entry.isDirectory
    · simp only [separate, here, if_true, List.mem_cons] at member
      rcases member with rfl | later
      · exact Nat.le_refl _
      · exact ih later
    · simp only [separate, here] at member
      have later := ih member
      omega

theorem weave_cons_directory (before : Nat) (name : String) (directories : List ArchiveDirectory)
    (files : List ArchiveEntry) :
    weave before (⟨before, name⟩ :: directories) files =
      ⟨name, []⟩ :: weave before directories files := by
  cases files with
  | nil => simp [weave, ArchiveDirectory.entry]
  | cons file rest => simp [weave, ArchiveDirectory.entry]

theorem weave_cons_file (later : ∀ directory ∈ directories, before < directory.before)
    (file : ArchiveEntry) (files : List ArchiveEntry) :
    weave before directories (file :: files) = file :: weave (before + 1) directories files := by
  cases directories with
  | nil => simp [weave]
  | cons directory rest =>
    have more := later directory List.mem_cons_self
    have differ : (directory.before == before) = false := by
      simp only [beq_eq_false_iff_ne]
      omega
    simp [weave, differ]

theorem getElem?_weave {files : List ArchiveEntry} (many : files.length = (filesOf entries).length)
    (before position : Nat) :
    (weave before (separate before entries).directories files)[position]? =
      entries[position]?.bind fun entry =>
        if entry.isDirectory then some ⟨entry.name, []⟩
        else files[(filesOf (entries.take position)).length]? := by
  induction entries generalizing before files position with
  | nil =>
    obtain rfl := List.length_eq_zero_iff.1 many
    simp [separate, weave]
  | cons first rest ih =>
    by_cases directory : first.isDirectory
    · rw [filesOf_cons_directory directory] at many
      simp only [separate, directory, if_true, weave_cons_directory]
      cases position with
      | zero => simp [directory]
      | succ position =>
        simp only [List.getElem?_cons_succ, ih many, List.take_succ_cons,
          filesOf_cons_directory directory]
    · rw [filesOf_cons_file directory] at many
      cases files with
      | nil => simp at many
      | cons file files =>
        -- The rest has this file in front of it, so none of its directories is due yet.
        have later : ∀ other ∈ (separate (before + 1) rest).directories, before < other.before :=
          fun other member => le_before_of_mem member
        simp only [separate, directory, Bool.false_eq_true, if_false, weave_cons_file later]
        cases position with
        | zero => simp [directory, filesOf]
        | succ position =>
          simp only [List.getElem?_cons_succ, ih (Nat.succ.inj many), List.take_succ_cons,
            filesOf_cons_file directory, List.length_cons]

theorem filesOf_of_getElem? {position : Nat} {entry : ArchiveEntry}
    (there : entries[position]? = some entry) (file : ¬ entry.isDirectory) :
    (filesOf entries)[(filesOf (entries.take position)).length]? = some entry := by
  obtain ⟨inside, rfl⟩ := List.getElem?_eq_some_iff.1 there
  have split : filesOf entries = filesOf (entries.take position) ++
      entries[position] :: filesOf (entries.drop (position + 1)) := by
    rw [← filesOf_cons_file file, ← filesOf_append, ← List.drop_eq_getElem_cons inside,
      List.take_append_drop]
  rw [split]
  simp

end ArchiveMembers

/-- The bytes that an entry is left with: its own if it cannot be relocated. -/
def ArchiveEntry.settledBytes (entry : ArchiveEntry) : Except RelocationError Relocated → Bytes
  | .ok relocated => relocated.bytes
  | .error _ => entry.bytes

theorem WorkItem.entry_settle (entry : ArchiveEntry)
    (outcome : Except RelocationError Relocated) :
    (WorkItem.settle ⟨entry, .settled outcome⟩).entry = ⟨entry.name, entry.settledBytes outcome⟩ := by
  cases outcome with
  | ok relocated => rfl
  | error cause => rfl

namespace Job

open ArchiveMembers

variable (job : Job) (schedule : Schedule) (tree : FileTree)

def remake (members : List ArchiveEntry) (position : Nat) (member : ArchiveEntry) : ArchiveEntry :=
  if member.isDirectory then ⟨member.name, []⟩
  else ⟨member.name, member.settledBytes <| job.outcomeOf schedule tree (filesOf members)
    (filesOf (members.take position)).length member⟩

def left (entries : List ArchiveEntry) : List ArchiveEntry :=
  (job.finish schedule tree entries).items.toList.map fun item => item.settle.entry

theorem getElem?_left (entries : List ArchiveEntry) (index : Nat) :
    (job.left schedule tree entries)[index]? = entries[index]?.map fun entry =>
      ⟨entry.name, entry.settledBytes (job.outcomeOf schedule tree entries index entry)⟩ := by
  rw [left, List.getElem?_map, Array.getElem?_toList, getElem?_finish, Option.map_map]
  congr 1
  funext entry
  exact WorkItem.entry_settle entry _

theorem length_left (entries : List ArchiveEntry) :
    (job.left schedule tree entries).length = entries.length := by
  rw [left, List.length_map, Array.length_toList, finish, size_run, start, List.size_toArray,
    List.length_map]

def rewoven (members : List ArchiveEntry) : List ArchiveEntry :=
  weave 0 (separate 0 members).directories (job.left schedule tree (filesOf members))

theorem getElem?_rewoven (members : List ArchiveEntry) (position : Nat) :
    (job.rewoven schedule tree members)[position]? =
      members[position]?.map (job.remake schedule tree members position) := by
  rw [rewoven, getElem?_weave (job.length_left schedule tree (filesOf members))]
  cases there : members[position]? with
  | none => rfl
  | some member =>
    by_cases directory : member.isDirectory
    · simp [remake, directory]
    · have among := filesOf_of_getElem? there directory
      simp only [Option.bind_some, Option.map_some, directory, Bool.false_eq_true, if_false,
        getElem?_left, among, remake]

theorem names_rewoven (members : List ArchiveEntry) :
    (job.rewoven schedule tree members).map ArchiveEntry.name =
      members.map ArchiveEntry.name := by
  apply List.ext_getElem?
  intro position
  rw [List.getElem?_map, List.getElem?_map, getElem?_rewoven]
  cases members[position]? with
  | none => rfl
  | some member => simp [remake, apply_ite]

end Job

theorem ArchiveFormat.readAt_of_read (format : ArchiveFormat) {tree : FileTree} {path : String}
    {members : List ArchiveEntry} (taken : (format.write members).refusal? = none)
    (held : tree.read path = .ok (format.write members).bytes) :
    format.readAt tree path = .ok members := by
  rw [readAt, held]
  dsimp only
  rw [format.read?_write members taken]

namespace Run

open ArchiveMembers

variable {format : ArchiveFormat} {schedule : Schedule} {job : Job} {tree : FileTree}
  {input output : String} {members : List ArchiveEntry}

theorem change_eq_ok {error : RunError} {step : FileTree → Except PathFault FileTree}
    {after : FileTree} :
    (change error step).run.run tree = (.ok (), after) ↔ step tree = .ok after := by
  rw [change, StateT.run, ExceptT.run_bind_eq_ok]
  constructor
  · rintro ⟨_, _, got, done⟩
    cases got
    split at done
    · next made =>
      cases done
      exact made
    · cases done
  · intro made
    refine ⟨tree, tree, rfl, ?_⟩
    rw [made]
    rfl

theorem run_relocateEntries (schedule : Schedule) (job : Job) (tree : FileTree)
    (entries : List ArchiveEntry) :
    (relocateEntries schedule job entries).run.run tree =
      (.ok (.ofItems (job.finish schedule tree entries).items.toList,
          (job.finish schedule tree entries).items.toList.map WorkItem.settle),
        (job.finish schedule tree entries).tree) := rfl

theorem relocateArchive_eq_ok (readable : format.readAt tree input = .ok members)
    {summary : Summary} {after : FileTree} :
    (relocateArchive format schedule job input output).run.run tree = (.ok summary, after) ↔
      .ofItems (job.finish schedule tree (filesOf members)).items.toList = summary ∧
      (format.write (job.rewoven schedule tree members)).refusal? = none ∧
      ∃ staged, (job.finish schedule tree (filesOf members)).tree.write (stagingPath output)
          (format.write (job.rewoven schedule tree members)).bytes = .ok staged ∧
        staged.move (stagingPath output) output = .ok after := by
  have woven : weave 0 (separate 0 members).directories
      (((job.finish schedule tree (filesOf members)).items.toList.map WorkItem.settle).map
        SettledEntry.entry) = job.rewoven schedule tree members := by
    rw [List.map_map]
    rfl
  unfold relocateArchive
  constructor
  · intro done
    obtain ⟨_, _, got, done⟩ := ExceptT.run_bind_eq_ok.1 done
    cases got
    simp only [readable, files_separate] at done
    obtain ⟨_, _, relocated, done⟩ := ExceptT.run_bind_eq_ok.1 done
    cases (run_relocateEntries schedule job tree _).symm.trans relocated
    obtain ⟨_, staged, writing, done⟩ := ExceptT.run_bind_eq_ok.1 done
    rw [woven] at writing done
    cases taken : (format.write (job.rewoven schedule tree members)).refusal? with
    | some reason =>
      simp only [taken] at done
      cases done
    | none =>
      simp only [taken] at done
      obtain ⟨_, moved, moving, done⟩ := ExceptT.run_bind_eq_ok.1 done
      cases done
      exact ⟨rfl, rfl, staged, change_eq_ok.1 writing, change_eq_ok.1 moving⟩
  · rintro ⟨rfl, taken, staged, writing, moving⟩
    refine ExceptT.run_bind_eq_ok.2 ⟨tree, tree, rfl, ?_⟩
    simp only [readable, files_separate]
    refine ExceptT.run_bind_eq_ok.2 ⟨_, _, run_relocateEntries schedule job tree _, ?_⟩
    rw [woven]
    refine ExceptT.run_bind_eq_ok.2 ⟨(), staged, change_eq_ok.2 writing, ?_⟩
    simp only [taken]
    exact ExceptT.run_bind_eq_ok.2 ⟨(), after, change_eq_ok.2 moving, rfl⟩

/-- An archive that a run writes has the members of the one it reads in their order: a directory as it
was, and a file with the bytes of its own outcome. The run gets there unless the format refuses a
member or the files have no place for the new archive. -/
theorem relocateArchive_inOrder (format : ArchiveFormat) (schedule : Schedule) (job : Job)
    (output : String) (readable : format.readAt tree input = .ok members)
    {finished : FileTree} (done : (job.finish schedule tree (filesOf members)).tree = finished) :
    ∃ written : List ArchiveEntry,
      written.map ArchiveEntry.name = members.map ArchiveEntry.name ∧
      (∀ position : Nat, written[position]? =
        members[position]?.map (job.remake schedule tree members position)) ∧
      ((∃ summary after,
          (relocateArchive format schedule job input output).run.run tree = (.ok summary, after)) ↔
        (format.write written).refusal? = none ∧ finished.hasPlace (stagingPath output) ∧
          finished.hasPlace output) ∧
      ∀ summary after,
        (relocateArchive format schedule job input output).run.run tree = (.ok summary, after) →
          after.read output = .ok (format.write written).bytes ∧
            format.readAt after output = .ok written := by
  subst done
  refine ⟨job.rewoven schedule tree members, job.names_rewoven schedule tree members,
    job.getElem?_rewoven schedule tree members, ?_, ?_⟩
  · constructor
    · rintro ⟨summary, after, done⟩
      obtain ⟨-, taken, staged, writing, moving⟩ := (relocateArchive_eq_ok readable).1 done
      have beside := FileTree.exists_write.1 ⟨staged, writing⟩
      have room := (FileTree.exists_move (FileTree.read_of_write writing).2).1 ⟨after, moving⟩
      exact ⟨taken, beside, (FileTree.alike_of_write writing).hasPlace_iff.1 room⟩
    · rintro ⟨taken, beside, room⟩
      obtain ⟨staged, writing⟩ := FileTree.exists_write.2 beside
      have room := (FileTree.alike_of_write writing).hasPlace_iff.2 room
      obtain ⟨after, moving⟩ := (FileTree.exists_move (FileTree.read_of_write writing).2).2 room
      exact ⟨_, after, (relocateArchive_eq_ok readable).2 ⟨rfl, taken, staged, writing, moving⟩⟩
  · intro summary after done
    obtain ⟨-, taken, staged, writing, moving⟩ := (relocateArchive_eq_ok readable).1 done
    have held := FileTree.read_of_move (FileTree.read_of_write writing).2 moving
    exact ⟨held, format.readAt_of_read taken held⟩

end Run

/-! An archive with directories in front of, among and behind its files. -/

/-- Of the classes, `D` has the superclass `o`, and `E` is broken. -/
def mixedMembers : List ArchiveEntry :=
  [⟨"META-INF/", []⟩, ⟨"META-INF/MANIFEST.MF", [0x0A]⟩, ⟨"a/", []⟩, ⟨"a/b/", []⟩,
    ⟨"D.class", versionBytes 52⟩, ⟨"E.class", [0xCA]⟩, ⟨"z/", []⟩]

def remadeMembers : List ArchiveEntry :=
  [⟨"META-INF/", []⟩, ⟨"META-INF/MANIFEST.MF", [0x0A]⟩, ⟨"a/", []⟩, ⟨"a/b/", []⟩,
    ⟨"D.class", [0xCA, 0xFE, 0xBA, 0xBE, 0, 0, 0, 52, 0, 7, 1, 0, 1, 0x44, 7, 0, 1, 1, 0, 1, 0x6F, 7,
      0, 3, 1, 0, 1, 0x6E, 7, 0, 5, 0, 0x21, 0, 2, 0, 6, 0, 0, 0, 0, 0, 0, 0, 0]⟩,
    ⟨"E.class", [0xCA]⟩, ⟨"z/", []⟩]

def mixedTree : FileTree :=
  { top := [("in.jar", .file (Zip.encode mixedMembers))], working := [] }

def plainJob : Job := { dumpingJob with dump := none }

theorem mixedMembers_inOrder :
    Zip.format.readAt mixedTree "in.jar" = .ok mixedMembers ∧
      ∃ summary after,
        (Run.relocateArchive Zip.format .inOrder plainJob "in.jar" "out.jar").run.run mixedTree =
            (.ok summary, after) ∧
          Zip.format.readAt after "out.jar" = .ok remadeMembers := by
  have written {members : List ArchiveEntry} (fits : Zip.Fits members) :
      Zip.format.write members = { bytes := Zip.encode members, refusal? := none } := if_pos fits
  have readable : Zip.format.readAt mixedTree "in.jar" = .ok mixedMembers := by
    have fits := written (by decide +kernel : Zip.Fits mixedMembers)
    have held : mixedTree.read "in.jar" = .ok (Zip.format.write mixedMembers).bytes := by
      rw [fits]
      rfl
    exact Zip.format.readAt_of_read (by rw [fits]) held
  obtain ⟨members, -, each, ends, held⟩ :=
    Run.relocateArchive_inOrder Zip.format .inOrder plainJob "out.jar" readable rfl
  have remade : remadeMembers =
      mixedMembers.mapIdx fun position => plainJob.remake .inOrder mixedTree mixedMembers position := by
    decide +kernel
  obtain rfl : members = remadeMembers := by
    rw [remade]
    apply List.ext_getElem?
    intro position
    rw [each, List.getElem?_mapIdx]
  have places : (plainJob.finish .inOrder mixedTree
      (ArchiveMembers.filesOf mixedMembers)).tree.hasPlace (Run.stagingPath "out.jar") ∧
      (plainJob.finish .inOrder mixedTree
        (ArchiveMembers.filesOf mixedMembers)).tree.hasPlace "out.jar" := by
    decide +kernel
  have taken := written (by decide +kernel : Zip.Fits remadeMembers)
  obtain ⟨summary, after, done⟩ := ends.2 ⟨by rw [taken], places⟩
  exact ⟨readable, summary, after, done, (held summary after done).2⟩

end ClassRenaming
