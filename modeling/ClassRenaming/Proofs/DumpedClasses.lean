import ClassRenaming.Proofs.Turns
import ClassRenaming.Proofs.WrittenFiles

/-!
What a job leaves in the directory that changed classes are dumped into. Classes of different names
have different files, so a class is overwritten only by one of its own name, whatever the order of
the turns: versions of a class for several releases have the name in common.
-/

namespace ClassRenaming

/-! The pieces of a text. -/

theorem splitOn_append_cons (mark : Char) (front rest : List Char) :
    splitOn mark (front ++ mark :: rest) = splitOn mark front ++ splitOn mark rest := by
  induction front with
  | nil => simp [splitOn]
  | cons c front ih =>
    rw [List.cons_append, splitOn, splitOn, ih]
    split
    · rfl
    · cases pieces : splitOn mark front with
      | nil => exact absurd pieces (splitOn_ne_nil mark front)
      | cons piece others => rfl

theorem splitOn_of_notMem {mark : Char} {text : List Char} (whole : mark ∉ text) :
    splitOn mark text = [text] := by
  induction text with
  | nil => rfl
  | cons c rest ih =>
    rw [List.mem_cons, not_or] at whole
    rw [splitOn, if_neg (Ne.symm whole.1), ih whole.2]

theorem notMem_of_mem_splitOn {mark : Char} {text piece : List Char}
    (member : piece ∈ splitOn mark text) : mark ∉ piece := by
  induction text generalizing piece with
  | nil =>
    rw [splitOn, List.mem_singleton] at member
    simp [member]
  | cons c rest ih =>
    rw [splitOn] at member
    split at member
    · rcases List.mem_cons.1 member with rfl | member
      · simp
      · exact ih member
    · next other =>
      cases pieces : splitOn mark rest with
      | nil => exact absurd pieces (splitOn_ne_nil mark rest)
      | cons first others =>
        rw [pieces] at member ih
        rcases List.mem_cons.1 member with rfl | member
        · rw [List.mem_cons, not_or]
          exact ⟨Ne.symm other, ih (List.mem_cons_self ..)⟩
        · exact ih (List.mem_cons_of_mem _ member)

namespace Path

theorem segments_of_single {segment : String} (single : '/' ∉ segment.toList) :
    segments segment = [segment] := by
  rw [segments, splitOn_of_notMem single, List.map_singleton, String.ofList_toList]

theorem segments_append_slash (base rest : String) :
    segments (base ++ "/" ++ rest) = segments base ++ segments rest := by
  have text : (base ++ "/" ++ rest).toList = base.toList ++ '/' :: rest.toList := by
    simp [String.toList_append]
  rw [segments, text, splitOn_append_cons, List.map_append]
  rfl

theorem single_of_mem_segments {path segment : String} (member : segment ∈ segments path) :
    '/' ∉ segment.toList := by
  obtain ⟨piece, held, rfl⟩ := List.mem_map.1 member
  rw [String.toList_ofList]
  exact notMem_of_mem_splitOn held

theorem joinSegments_segments (path : String) : joinSegments (segments path) = path := by
  have texts : (segments path).map String.toList = splitOn '/' path.toList := by
    simp [segments, Function.comp_def]
  rw [joinSegments, texts, intercalate_splitOn, String.ofList_toList]

theorem segments_injective {a b : String} (same : segments a = segments b) : a = b := by
  rw [← joinSegments_segments a, same, joinSegments_segments]

structure IsStep (segment : String) : Prop where
  single : '/' ∉ segment.toList
  named : ¬ isIdle segment
  down : segment ≠ ".."

theorem IsStep.lead {segment : String} (step : IsStep segment) (location : List String) :
    Path.lead location segment = location ++ [segment] := by
  rw [Path.lead, if_neg step.named, if_neg step.down]

theorem isAbsolute_append {base : String} (nonempty : base ≠ "") (rest : String) :
    isAbsolute (base ++ rest) = isAbsolute base := by
  cases chars : base.toList with
  | nil => exact absurd (String.toList_eq_nil_iff.1 chars) nonempty
  | cons c cs => simp [isAbsolute, String.toList_append, chars]

theorem IsStep.not_isAbsolute {segment : String} (step : IsStep segment) :
    isAbsolute segment = false := by
  cases chars : segment.toList with
  | nil => simp [isAbsolute, chars]
  | cons c cs =>
    have single := step.single
    rw [chars, List.mem_cons, not_or] at single
    simp [isAbsolute, chars, Ne.symm single.1]

end Path

namespace FileTree

variable {tree : FileTree}

theorem location_join {segment : String} (step : Path.IsStep segment) (base : String) :
    tree.location (Path.join base segment) = tree.location base ++ [segment] := by
  have last := Path.segments_of_single step.single
  unfold Path.join
  by_cases empty : base = ""
  · have root : tree.location "" = tree.working := by
      rfl
    rw [if_pos (.inl empty), empty, root, location, last, start, step.not_isAbsolute]
    exact step.lead _
  · rw [if_neg (by simp [empty, step.not_isAbsolute])]
    split
    · next slash =>
      obtain ⟨front, same⟩ := List.getLast?_eq_some_iff.1 slash
      obtain rfl : base = String.ofList front ++ "/" ++ "" := by
        rw [← String.toList_inj]
        simp [same, String.toList_append]
      have further : String.ofList front ++ "/" ++ "" ++ segment =
          String.ofList front ++ "/" ++ segment := by
        rw [String.append_empty]
      have started : tree.start (String.ofList front ++ "/" ++ segment) =
          tree.start (String.ofList front ++ "/" ++ "") := by
        rw [← further, start, start, Path.isAbsolute_append empty]
      rw [further, location, location, started, Path.segments_append_slash,
        Path.segments_append_slash, last, List.foldl_append, List.foldl_append]
      exact step.lead _
    · rw [location, location, Path.segments_append_slash, last, List.foldl_append, start, start,
        String.append_assoc, Path.isAbsolute_append empty]
      exact step.lead _

theorem location_joins {names : List String} (steps : ∀ name ∈ names, Path.IsStep name)
    (base : String) : tree.location (names.foldl Path.join base) = tree.location base ++ names := by
  induction names generalizing base with
  | nil => simp
  | cons name rest ih =>
    rw [List.foldl_cons, ih (fun other member => steps other (List.mem_cons_of_mem _ member)),
      location_join (steps name (List.mem_cons_self ..)), List.append_assoc, List.singleton_append]

end FileTree

namespace Dump

variable {root name : String}

theorem segments_ne_nil (name : String) : Path.segments name ≠ [] := by
  rw [Path.segments, ne_eq, List.map_eq_nil_iff]
  exact splitOn_ne_nil _ _

theorem isStep_of_mem_segments (proper : isSuspicious name = false) {segment : String}
    (member : segment ∈ Path.segments name) : Path.IsStep segment := by
  have fine := List.any_eq_false.1 proper segment member
  simp only [Bool.or_eq_true, beq_iff_eq, not_or] at fine
  exact ⟨Path.single_of_mem_segments member, fine.1, fine.2⟩

theorem isStep_append_classSuffix {segment : String} (single : '/' ∉ segment.toList) :
    Path.IsStep (segment ++ ArchiveEntry.classSuffix) := by
  have long : 6 ≤ (segment ++ ArchiveEntry.classSuffix).toList.length := by
    simp [String.toList_append, ArchiveEntry.classSuffix]
  refine ⟨?_, ?_, ?_⟩
  · rw [String.toList_append, List.mem_append, not_or]
    exact ⟨single, by decide⟩
  · intro idle
    rcases Bool.or_eq_true_iff.1 idle with same | same <;>
      · rw [beq_iff_eq.1 same] at long
        exact absurd long (by decide)
  · intro same
    rw [same] at long
    exact absurd long (by decide)

def fileSegments (name : String) : List String :=
  (Path.segments name).dropLast ++
    [(Path.segments name).getLast?.getD "" ++ ArchiveEntry.classSuffix]

theorem location_pathFor (proper : isSuspicious name = false) (tree : FileTree) :
    tree.location (pathFor root name) = tree.location root ++ fileSegments name := by
  have last : (Path.segments name).getLast?.getD "" ∈ Path.segments name := by
    rw [List.getLast?_eq_some_getLast (segments_ne_nil name)]
    exact List.getLast_mem (segments_ne_nil name)
  have above : ∀ segment ∈ (Path.segments name).dropLast, Path.IsStep segment :=
    fun segment member => isStep_of_mem_segments proper (List.dropLast_subset _ member)
  rw [pathFor, directoryFor, FileTree.location_join
    (isStep_append_classSuffix (Path.single_of_mem_segments last)), FileTree.location_joins above,
    fileSegments, List.append_assoc]

theorem fileSegments_injective {a b : String} (same : fileSegments a = fileSegments b) : a = b := by
  have whole (name : String) : (Path.segments name).dropLast ++
      [(Path.segments name).getLast?.getD ""] = Path.segments name := by
    rw [List.getLast?_eq_some_getLast (segments_ne_nil name)]
    exact List.dropLast_append_getLast (segments_ne_nil name)
  obtain ⟨above, last⟩ := List.append_inj' same rfl
  rw [List.singleton_inj, ← String.toList_inj, String.toList_append, String.toList_append,
    List.append_cancel_right_eq, String.toList_inj] at last
  apply Path.segments_injective
  rw [← whole a, ← whole b, above, last]

theorem location_pathFor_injective {a b : String} (properA : isSuspicious a = false)
    (properB : isSuspicious b = false) {tree : FileTree}
    (same : tree.location (pathFor root a) = tree.location (pathFor root b)) : a = b := by
  rw [location_pathFor properA, location_pathFor properB] at same
  exact fileSegments_injective (List.append_cancel_left same)

def isWritable (tree : FileTree) (root name : String) (bytes : Bytes) : Bool :=
  (tree.makeDirectory (directoryFor root name) >>= (·.write (pathFor root name) bytes)).isOk

theorem write_of_isWritable {tree : FileTree} {bytes : Bytes} (proper : isSuspicious name = false)
    (writable : isWritable tree root name bytes) :
    ∃ after, write tree root name bytes = .ok after ∧
      after.read (pathFor root name) = .ok bytes ∧
        FileTree.Keeps (· ≠ tree.location (pathFor root name)) tree after := by
  unfold isWritable at writable
  cases done : tree.makeDirectory (directoryFor root name) >>=
      (·.write (pathFor root name) bytes) with
  | error fault =>
    rw [done] at writable
    cases writable
  | ok after =>
    obtain ⟨made, making, writing⟩ := Except.bind_eq_ok.1 done
    have made_keeps := FileTree.keeps_of_makeDirectory making
    obtain ⟨written_keeps, held⟩ := FileTree.read_of_write writing
    rw [made_keeps.location] at written_keeps
    refine ⟨after, ?_, held, (made_keeps.mono fun _ _ => trivial).trans written_keeps⟩
    rw [write, proper, done]
    rfl

end Dump

def WorkItem.record? (item : WorkItem) : Option (String × Bytes) :=
  match item.stage with
  | .settled outcome => outcome.toOption.bind item.entry.record?
  | _ => none

namespace Progress

variable {progress : Progress} {index other : Nat} {entry : ArchiveEntry} {item : WorkItem}

def record? (progress : Progress) (index : Nat) : Option (String × Bytes) :=
  progress.items[index]?.bind WorkItem.record?

theorem record?_place (there : progress.items[index]? = some item) (entry : ArchiveEntry)
    (stage : WorkStage) (other : Nat) :
    (progress.place index entry stage).record? other =
      if other = index then WorkItem.record? ⟨entry, stage⟩ else progress.record? other := by
  rw [record?]
  by_cases own : other = index
  · rw [own, getElem?_place_self there, if_pos rfl, Option.bind_some]
  · rw [getElem?_place_ne own, if_neg own, record?]

/-- The class of an item changed: it is settled, and this is what it has become. -/
def Changed (progress : Progress) (index : Nat) (name : String) (bytes : Bytes) : Prop :=
  ∃ entry relocated, progress.items[index]? = some ⟨entry, .settled (.ok relocated)⟩ ∧
    relocated.changed ∧ entry.className? = some name ∧ relocated.bytes = bytes

end Progress

namespace Job

variable {job : Job} {root name : String} {progress : Progress} {index : Nat}
  {entry : ArchiveEntry} {outcome : Except RelocationError Relocated} {bytes : Bytes}

theorem record?_eq_some {relocated : Relocated} :
    entry.record? relocated = some (name, bytes) ↔
      relocated.changed ∧ entry.className? = some name ∧ relocated.bytes = bytes := by
  unfold ArchiveEntry.record?
  split
  · next changed => simp [changed]
  · next unchanged => simp [unchanged]

theorem changed_iff :
    progress.Changed index name bytes ↔ progress.record? index = some (name, bytes) := by
  constructor
  · rintro ⟨entry, relocated, there, held⟩
    rw [Progress.record?, there]
    exact record?_eq_some.2 held
  · intro recorded
    obtain ⟨⟨entry, stage⟩, there, recorded⟩ := Option.bind_eq_some_iff.1 recorded
    unfold WorkItem.record? at recorded
    split at recorded
    · next outcome settled =>
      cases outcome with
      | error cause => cases recorded
      | ok relocated => exact ⟨entry, relocated, by rw [there, ← settled], record?_eq_some.1 recorded⟩
    · cases recorded

theorem className?_of_record? (recorded : outcome.toOption.bind entry.record? = some (name, bytes)) :
    entry.className? = some name := by
  obtain ⟨relocated, -, recorded⟩ := Option.bind_eq_some_iff.1 recorded
  exact (record?_eq_some.1 recorded).2.1

def isWritable (root : String) (progress : Progress) (index : Nat) : Bool :=
  match progress.items[index]? with
  | some ⟨entry, .relocated outcome⟩ =>
    (outcome.toOption.bind entry.record?).all fun (name, bytes) =>
      Dump.isWritable progress.tree root name bytes
  | _ => true

def allWritable (job : Job) (root : String) (progress : Progress) : List Nat → Bool
  | [] => true
  | index :: rest =>
    isWritable root progress index && job.allWritable root (job.takeTurn progress index) rest

theorem dumpEntry_of_none (quiet : outcome.toOption.bind entry.record? = none) :
    job.dumpEntry progress entry outcome = progress := by
  rw [dumpEntry, quiet]
  cases job.dump with
  | none => rfl
  | some root => rfl

theorem read_dumpEntry (dump : job.dump = some root)
    (recorded : outcome.toOption.bind entry.record? = some (name, bytes))
    (proper : Dump.isSuspicious name = false)
    (writable : Dump.isWritable progress.tree root name bytes) :
    (job.dumpEntry progress entry outcome).tree.read (Dump.pathFor root name) = .ok bytes ∧
      FileTree.Keeps (· ≠ progress.tree.location (Dump.pathFor root name)) progress.tree
        (job.dumpEntry progress entry outcome).tree := by
  obtain ⟨after, written, readable, keeps⟩ := Dump.write_of_isWritable proper writable
  simp only [dumpEntry, dump, recorded, written]
  exact ⟨readable, keeps⟩

def ProperNames (entries : List ArchiveEntry) : Prop :=
  ∀ entry ∈ entries, ∀ name ∈ entry.className?, Dump.isSuspicious name = false

instance (entries : List ArchiveEntry) : Decidable (ProperNames entries) :=
  inferInstanceAs (Decidable (∀ entry ∈ entries, ∀ name ∈ entry.className?, _))

theorem entry_takeTurn (job : Job) (progress : Progress) (turn index : Nat) :
    (job.takeTurn progress turn).items[index]?.map WorkItem.entry =
      progress.items[index]?.map WorkItem.entry := by
  by_cases own : index = turn
  · subst own
    cases there : progress.items[index]? with
    | none =>
      have gone := size_takeTurn job progress index
      rw [Array.getElem?_eq_none_iff, ← gone, ← Array.getElem?_eq_none_iff] at there
      rw [there]
    | some item =>
      obtain ⟨entry, stage⟩ := item
      cases stage with
      | waiting => rw [takeTurn_waiting there]; rfl
      | relocated outcome => rw [takeTurn_relocated there]; rfl
      | settled outcome => rw [takeTurn_settled there, there]
  · rw [getElem?_takeTurn_ne job progress own]

/-- Every class that a settled item changed has its file, with the bytes of an item of its name. -/
structure Kept (root : String) (progress : Progress) : Prop where
  proper : ∀ (index : Nat) (item : WorkItem), progress.items[index]? = some item →
    ∀ name ∈ item.entry.className?, Dump.isSuspicious name = false
  held : ∀ index name bytes, progress.record? index = some (name, bytes) →
    ∃ last held, progress.record? last = some (name, held) ∧
      progress.tree.read (Dump.pathFor root name) = .ok held

theorem Kept.proper_of_record? (kept : Kept root progress)
    (recorded : progress.record? index = some (name, bytes)) : Dump.isSuspicious name = false := by
  obtain ⟨⟨entry, stage⟩, there, recorded⟩ := Option.bind_eq_some_iff.1 recorded
  unfold WorkItem.record? at recorded
  split at recorded
  · exact kept.proper index _ there name (className?_of_record? recorded)
  · cases recorded

theorem kept_start (job : Job) (root : String) (tree : FileTree) {entries : List ArchiveEntry}
    (proper : ProperNames entries) : Kept root (job.start tree entries) := by
  constructor
  · intro index item there name named
    rw [getElem?_start] at there
    obtain ⟨entry, here, rfl⟩ := Option.map_eq_some_iff.1 there
    exact proper entry (List.mem_of_getElem? here) name named
  · intro index name bytes recorded
    rw [Progress.record?, getElem?_start] at recorded
    cases here : entries[index]? with
    | none => simp [here] at recorded
    | some entry => simp [here, WorkItem.record?] at recorded

theorem record?_relocated (there : progress.items[index]? = some ⟨entry, .waiting⟩)
    (outcome : Except RelocationError Relocated) (other : Nat) :
    (progress.place index entry (.relocated outcome)).record? other = progress.record? other := by
  rw [Progress.record?_place there]
  split
  · next own =>
    rw [own, Progress.record?, there]
    rfl
  · rfl

theorem record?_settled (job : Job)
    (there : progress.items[index]? = some ⟨entry, .relocated outcome⟩) (other : Nat) :
    ((job.dumpEntry progress entry outcome).place index entry (.settled outcome)).record? other =
      if other = index then outcome.toOption.bind entry.record? else progress.record? other := by
  rw [← items_dumpEntry job progress entry outcome] at there
  rw [Progress.record?_place there, Progress.record?, items_dumpEntry]
  rfl

theorem record?_of_settled (job : Job)
    (there : progress.items[index]? = some ⟨entry, .relocated outcome⟩) {last : Nat} {held : Bytes}
    (recorded : progress.record? last = some (name, held)) :
    ((job.dumpEntry progress entry outcome).place index entry (.settled outcome)).record? last =
      some (name, held) := by
  rw [record?_settled job there, if_neg, recorded]
  rintro rfl
  rw [Progress.record?, there] at recorded
  cases recorded

theorem Kept.held_dumpEntry (kept : Kept root progress) (dump : job.dump = some root)
    (there : progress.items[index]? = some ⟨entry, .relocated outcome⟩)
    (writable : isWritable root progress index) {after : Progress}
    (same : after = (job.dumpEntry progress entry outcome).place index entry (.settled outcome))
    {other : Nat} (recorded : after.record? other = some (name, bytes)) :
    ∃ last held, after.record? last = some (name, held) ∧
      after.tree.read (Dump.pathFor root name) = .ok held := by
  have tree : after.tree = (job.dumpEntry progress entry outcome).tree := by
    rw [same]
    rfl
  unfold isWritable at writable
  simp only [there] at writable
  rw [same, record?_settled job there] at recorded
  rw [tree, same]
  cases dumped : outcome.toOption.bind entry.record? with
  | none =>
    have before : progress.record? other = some (name, bytes) := by
      split at recorded
      · rw [dumped] at recorded
        cases recorded
      · exact recorded
    obtain ⟨last, held, was, readable⟩ := kept.held other name bytes before
    refine ⟨last, held, record?_of_settled job there was, ?_⟩
    rw [dumpEntry_of_none dumped]
    exact readable
  | some item =>
    obtain ⟨own, content⟩ := item
    have proper := kept.proper index _ there own (className?_of_record? dumped)
    rw [dumped, Option.all_some] at writable
    obtain ⟨readable, keeps⟩ := read_dumpEntry dump dumped proper writable
    by_cases equal : own = name
    · subst equal
      refine ⟨index, content, ?_, readable⟩
      rw [record?_settled job there, if_pos rfl, dumped]
    · have before : progress.record? other = some (name, bytes) := by
        split at recorded
        · rw [dumped] at recorded
          cases recorded
          exact absurd rfl equal
        · exact recorded
      obtain ⟨last, held, was, readable⟩ := kept.held other name bytes before
      refine ⟨last, held, record?_of_settled job there was,
        keeps.read (fun meets => equal ?_) readable⟩
      exact (Dump.location_pathFor_injective (kept.proper_of_record? before) proper meets).symm

theorem kept_takeTurn (dump : job.dump = some root) (kept : Kept root progress)
    (writable : isWritable root progress index) : Kept root (job.takeTurn progress index) := by
  constructor
  · intro other item there name named
    have same := entry_takeTurn job progress index other
    rw [there, Option.map_some, eq_comm, Option.map_eq_some_iff] at same
    obtain ⟨before, here, same⟩ := same
    rw [← same] at named
    exact kept.proper other before here name named
  · intro other name bytes recorded
    cases turn_takeTurn job progress index with
    | idles same =>
      rw [same] at recorded ⊢
      exact kept.held other name bytes recorded
    | relocates entry there same =>
      have records (other : Nat) :
          (job.takeTurn progress index).record? other = progress.record? other := by
        rw [same]
        exact record?_relocated there _ other
      rw [records] at recorded
      obtain ⟨last, held, was, readable⟩ := kept.held other name bytes recorded
      refine ⟨last, held, (records last).trans was, ?_⟩
      rw [same]
      exact readable
    | dumps entry outcome there same =>
      exact kept.held_dumpEntry dump there writable same recorded

theorem kept_run (dump : job.dump = some root) {turns : List Nat} (kept : Kept root progress)
    (writable : job.allWritable root progress turns) : Kept root (job.run progress turns) := by
  induction turns generalizing progress with
  | nil => exact kept
  | cons first rest ih =>
    rw [allWritable, Bool.and_eq_true] at writable
    rw [run_cons]
    exact ih (kept_takeTurn dump kept writable.1) writable.2

theorem className?_of_changed {relocated : Relocated}
    (done : (progress.relocate entry).1 = .ok relocated) (changed : relocated.changed) :
    ∃ name, entry.className? = some name := by
  unfold Progress.relocate Relocator.relocateEntry at done
  split at done
  · next name named => exact ⟨name, named⟩
  · cases done
    cases changed

end Job

/-! Two versions of a class, for releases with different versions of the format. -/

/-- The class `D` with the superclass `o`. -/
def versionBytes (major : UInt8) : Bytes :=
  [0xCA, 0xFE, 0xBA, 0xBE, 0, 0, 0, major, 0, 5, 1, 0, 1, 0x44, 7, 0, 1, 1, 0, 1, 0x6F, 7, 0, 3,
    0, 0x21, 0, 2, 0, 4, 0, 0, 0, 0, 0, 0, 0, 0]

def versions : List ArchiveEntry :=
  [⟨"D.class", versionBytes 52⟩, ⟨"META-INF/versions/9/D.class", versionBytes 53⟩]

def dumpingJob : Job where
  table := ⟨[⟨"o", "n"⟩]⟩
  options := { strategy := .fast, skipSource := true }
  classpath := []
  platform := .empty
  dump := some "out"

def emptyTree : FileTree := { top := [], working := [] }

def soleFile? : Children → Option Bytes
  | [(_, .directory [(_, .file bytes)])] => some bytes
  | _ => none

theorem allContents_of_soleFile {tree : FileTree} {bytes : Bytes}
    (sole : soleFile? tree.top = some bytes) : tree.allContents = [bytes] := by
  unfold soleFile? at sole
  split at sole
  · next top =>
    cases sole
    simp [FileTree.allContents, top, Children.files]
  · cases sole

def Schedule.backwards : Schedule where
  turns count := (inOrder.turns count).reverse
  complete count index inside := by
    rw [List.count_reverse]
    exact inOrder.complete count index inside

end ClassRenaming
