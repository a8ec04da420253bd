import ClassRenaming.CommandLine.Job

/-!
What becomes of entries that are worked on side by side. A turn is one entry's own, so when all turns
are taken every entry is in its place, settled with what its relocation gave in its first turn.
-/

namespace ClassRenaming

namespace Progress

variable {progress : Progress} {index other : Nat} {entry : ArchiveEntry} {item : WorkItem}

theorem size_place (progress : Progress) (index : Nat) (entry : ArchiveEntry) (stage : WorkStage) :
    (progress.place index entry stage).items.size = progress.items.size := by
  rw [place, Array.size_setIfInBounds]

theorem getElem?_place_self (there : progress.items[index]? = some item) (entry : ArchiveEntry)
    (stage : WorkStage) : (progress.place index entry stage).items[index]? = some ⟨entry, stage⟩ := by
  obtain ⟨inside, -⟩ := Array.getElem?_eq_some_iff.1 there
  rw [place, Array.getElem?_setIfInBounds_self_of_lt inside]

theorem getElem?_place_ne (beside : other ≠ index) (entry : ArchiveEntry) (stage : WorkStage) :
    (progress.place index entry stage).items[other]? = progress.items[other]? := by
  rw [place, Array.getElem?_setIfInBounds_ne beside.symm]

end Progress

namespace Job

variable {job : Job} {progress : Progress} {index other : Nat} {entry : ArchiveEntry}
  {outcome : Except RelocationError Relocated} {turns : List Nat}

theorem items_dumpEntry (job : Job) (progress : Progress) (entry : ArchiveEntry)
    (outcome : Except RelocationError Relocated) :
    (job.dumpEntry progress entry outcome).items = progress.items := by
  unfold dumpEntry
  split
  · split
    · rfl
    · rfl
  · rfl

inductive Turn (job : Job) (before : Progress) (index : Nat) (after : Progress) : Prop where
  | relocates (entry : ArchiveEntry) (there : before.items[index]? = some ⟨entry, .waiting⟩)
    (same : after = { before.place index entry (.relocated (before.relocate entry).1) with
      cache := (before.relocate entry).2 })
  | dumps (entry : ArchiveEntry) (outcome : Except RelocationError Relocated)
    (there : before.items[index]? = some ⟨entry, .relocated outcome⟩)
    (same : after = (job.dumpEntry before entry outcome).place index entry (.settled outcome))
  | idles (same : after = before)

theorem turn_takeTurn (job : Job) (progress : Progress) (index : Nat) :
    Turn job progress index (job.takeTurn progress index) := by
  unfold takeTurn
  split
  · next entry there => exact .relocates entry there rfl
  · next entry outcome there => exact .dumps entry outcome there rfl
  · exact .idles rfl

theorem takeTurn_waiting (there : progress.items[index]? = some ⟨entry, .waiting⟩) :
    (job.takeTurn progress index).items[index]? =
      some ⟨entry, .relocated (progress.relocate entry).1⟩ := by
  simp only [takeTurn, there]
  exact Progress.getElem?_place_self there ..

theorem takeTurn_relocated (there : progress.items[index]? = some ⟨entry, .relocated outcome⟩) :
    (job.takeTurn progress index).items[index]? = some ⟨entry, .settled outcome⟩ := by
  simp only [takeTurn, there]
  rw [← items_dumpEntry job progress entry outcome] at there
  exact Progress.getElem?_place_self there ..

theorem takeTurn_settled (there : progress.items[index]? = some ⟨entry, .settled outcome⟩) :
    job.takeTurn progress index = progress := by
  simp only [takeTurn, there]

theorem getElem?_takeTurn_ne (job : Job) (progress : Progress) (beside : other ≠ index) :
    (job.takeTurn progress index).items[other]? = progress.items[other]? := by
  cases turn_takeTurn job progress index with
  | relocates entry there same => rw [same, Progress.getElem?_place_ne beside]
  | dumps entry outcome there same =>
    rw [same, Progress.getElem?_place_ne beside, items_dumpEntry]
  | idles same => rw [same]

theorem size_takeTurn (job : Job) (progress : Progress) (index : Nat) :
    (job.takeTurn progress index).items.size = progress.items.size := by
  cases turn_takeTurn job progress index with
  | relocates entry there same => rw [same, Progress.size_place]
  | dumps entry outcome there same => rw [same, Progress.size_place, items_dumpEntry]
  | idles same => rw [same]

/-! Turns one after the other. -/

theorem run_cons (job : Job) (progress : Progress) (index : Nat) (turns : List Nat) :
    job.run progress (index :: turns) = job.run (job.takeTurn progress index) turns := rfl

theorem size_run (job : Job) (progress : Progress) (turns : List Nat) :
    (job.run progress turns).items.size = progress.items.size := by
  induction turns generalizing progress with
  | nil => rfl
  | cons index rest ih => rw [run_cons, ih, size_takeTurn]

theorem run_settled (turns : List Nat)
    (there : progress.items[index]? = some ⟨entry, .settled outcome⟩) :
    (job.run progress turns).items[index]? = some ⟨entry, .settled outcome⟩ := by
  induction turns generalizing progress with
  | nil => exact there
  | cons first rest ih =>
    rw [run_cons]
    by_cases own : index = first
    · subst own
      rw [takeTurn_settled there]
      exact ih there
    · exact ih ((getElem?_takeTurn_ne job progress own).trans there)

theorem run_relocated (comes : index ∈ turns)
    (there : progress.items[index]? = some ⟨entry, .relocated outcome⟩) :
    (job.run progress turns).items[index]? = some ⟨entry, .settled outcome⟩ := by
  induction turns generalizing progress with
  | nil => cases comes
  | cons first rest ih =>
    rw [run_cons]
    by_cases own : index = first
    · subst own
      exact run_settled rest (takeTurn_relocated there)
    · exact ih ((List.mem_cons.1 comes).resolve_left own)
        ((getElem?_takeTurn_ne job progress own).trans there)

theorem run_waiting (twice : 2 ≤ turns.count index)
    (there : progress.items[index]? = some ⟨entry, .waiting⟩) :
    (job.run progress turns).items[index]? =
      some ⟨entry, .settled ((job.run progress (turns.takeWhile (· != index))).relocate entry).1⟩ := by
  induction turns generalizing progress with
  | nil => simp at twice
  | cons first rest ih =>
    by_cases own : first = index
    · subst own
      have again : first ∈ rest := by
        rw [List.count_cons_self] at twice
        exact List.count_pos_iff.1 (by omega)
      simpa [run_cons, run] using run_relocated again (takeTurn_waiting there)
    · rw [List.count_cons_of_ne own] at twice
      have before : (first :: rest).takeWhile (· != index) =
          first :: rest.takeWhile (· != index) := List.takeWhile_cons_of_pos (by simpa using own)
      rw [before, run_cons, run_cons]
      exact ih twice ((getElem?_takeTurn_ne job progress (Ne.symm own)).trans there)

/-! A job from start to finish. -/

def outcomeOf (job : Job) (schedule : Schedule) (tree : FileTree) (entries : List ArchiveEntry)
    (index : Nat) (entry : ArchiveEntry) : Except RelocationError Relocated :=
  ((job.run (job.start tree entries)
    ((schedule.turns entries.length).takeWhile (· != index))).relocate entry).1

theorem getElem?_start (job : Job) (tree : FileTree) (entries : List ArchiveEntry) (index : Nat) :
    (job.start tree entries).items[index]? =
      entries[index]?.map fun entry => ⟨entry, .waiting⟩ := by
  simp [start]

theorem getElem?_finish (job : Job) (schedule : Schedule) (tree : FileTree)
    (entries : List ArchiveEntry) (index : Nat) :
    (job.finish schedule tree entries).items[index]? =
      entries[index]?.map fun entry =>
        ⟨entry, .settled (job.outcomeOf schedule tree entries index entry)⟩ := by
  have begun := getElem?_start job tree entries index
  cases there : entries[index]? with
  | none =>
    rw [there, Option.map_none, Array.getElem?_eq_none_iff] at begun
    rw [Option.map_none, Array.getElem?_eq_none_iff, finish, size_run]
    exact begun
  | some entry =>
    rw [there] at begun
    obtain ⟨inside, -⟩ := List.getElem?_eq_some_iff.1 there
    exact run_waiting (schedule.complete _ index inside) begun

end Job

end ClassRenaming
