import ClassRenaming.Proofs.WrittenFiles

/-!
What is read from a tree after a file was moved. Neither a file that is written nor one that is taken
away makes or ends a directory, so a path that had a place keeps it, and a file that is written beside
its place and moved there is read back under its new path.
-/

namespace ClassRenaming

namespace Children

def HasDirectory (location : List String) (children : Children) : Prop :=
  ∃ inner, nodeAt location children = some (.directory inner)

theorem hasDirectory_nil (children : Children) : HasDirectory [] children := ⟨children, rfl⟩

theorem hasDirectory_cons {name : String} {rest : List String} {children : Children} :
    HasDirectory (name :: rest) children ↔
      ∃ inner, children.lookup name = some (.directory inner) ∧ HasDirectory rest inner := by
  constructor
  · rintro ⟨inner, found⟩
    obtain ⟨under, held, below⟩ := lookup_of_directory found
    exact ⟨under, held, inner, below⟩
  · rintro ⟨under, held, inner, below⟩
    exact ⟨inner, by rw [nodeAt_of_directory held, below]⟩

theorem hasDirectory_cons_of_lookup {name : String} {rest : List String}
    {children inner : Children} (held : children.lookup name = some (.directory inner)) :
    HasDirectory (name :: rest) children ↔ HasDirectory rest inner := by
  rw [hasDirectory_cons]
  simp [held]

theorem not_hasDirectory_of_nodeAt {location : List String} {children : Children}
    {node : FileNode} {bytes : Bytes} (found : nodeAt location children = some node)
    (filed : node.contents? = some bytes) : ¬ HasDirectory location children := by
  rintro ⟨inner, directory⟩
  obtain rfl := Option.some.inj (found.symm.trans directory)
  cases filed

theorem hasDirectory_of_leaf {name : String} {children others : Children}
    (before : ¬ HasDirectory [name] children) (after : ¬ HasDirectory [name] others)
    (beside : ∀ other, other ≠ name → others.lookup other = children.lookup other)
    (location : List String) : HasDirectory location others ↔ HasDirectory location children := by
  cases location with
  | nil => simp [hasDirectory_nil]
  | cons first rest =>
    rw [hasDirectory_cons] at before after ⊢
    rw [hasDirectory_cons]
    by_cases same : first = name
    · subst same
      constructor
      · rintro ⟨inner, held, -⟩
        exact absurd ⟨inner, held, hasDirectory_nil inner⟩ after
      · rintro ⟨inner, held, -⟩
        exact absurd ⟨inner, held, hasDirectory_nil inner⟩ before
    · rw [beside first same]

theorem hasDirectory_put {name : String} {children inner changed : Children}
    (held : children.lookup name = some (.directory inner))
    (within : ∀ rest, HasDirectory rest changed ↔ HasDirectory rest inner)
    (location : List String) :
    HasDirectory location (put name (.directory changed) children) ↔
      HasDirectory location children := by
  cases location with
  | nil => simp [hasDirectory_nil]
  | cons first rest =>
    by_cases same : first = name
    · subst same
      have now : (put first (.directory changed) children).lookup first =
          some (.directory changed) := by
        rw [lookup_put, if_pos rfl]
      rw [hasDirectory_cons_of_lookup now, hasDirectory_cons_of_lookup held]
      exact within rest
    · rw [hasDirectory_cons, hasDirectory_cons, lookup_put, if_neg same]

theorem hasDirectory_putAt {place : List String} {node : FileNode} {bytes : Bytes}
    {children : Children} (filed : node.contents? = some bytes)
    (free : ¬ HasDirectory place children) (location : List String) :
    HasDirectory location (putAt place node children) ↔ HasDirectory location children := by
  induction place generalizing children location with
  | nil => exact absurd (hasDirectory_nil children) free
  | cons name rest ih =>
    by_cases more : rest = []
    · subst more
      have put : nodeAt [name] (putAt [name] node children) = some node := by
        simp [putAt, nodeAt, lookup_put]
      refine hasDirectory_of_leaf free (not_hasDirectory_of_nodeAt put filed) ?_ location
      intro other differ
      rw [putAt, lookup_put, if_neg differ]
    · by_cases above : HasDirectory [name] children
      · obtain ⟨inner, held⟩ := above
        rw [putAt_of_directory held more]
        rw [hasDirectory_cons_of_lookup held] at free
        exact hasDirectory_put held (ih free) location
      · rw [putAt_of_none more (fun inner held => above ⟨inner, held⟩)]

theorem lookup_filter_ne (name other : String) (children : Children) :
    List.lookup other (children.filter (·.1 ≠ name)) =
      if other = name then none else children.lookup other := by
  induction children with
  | nil => simp
  | cons child rest ih =>
    obtain ⟨here, node⟩ := child
    by_cases gone : here = name
    · subst gone
      rw [List.filter_cons_of_neg (by simp), ih, lookup_cons]
      by_cases asked : other = here <;> simp [asked]
    · rw [List.filter_cons_of_pos (by simpa using gone), lookup_cons, lookup_cons, ih]
      by_cases asked : other = here
      · simp [asked, gone]
      · simp [asked]

theorem hasDirectory_removeAt {place : List String} {children : Children}
    (free : ¬ HasDirectory place children) (location : List String) :
    HasDirectory location (removeAt place children) ↔ HasDirectory location children := by
  induction place generalizing children location with
  | nil => exact absurd (hasDirectory_nil children) free
  | cons name rest ih =>
    cases rest with
    | nil =>
      have gone : nodeAt [name] (removeAt [name] children) = none := by
        simp only [removeAt, nodeAt, lookup_filter_ne, if_pos]
      refine hasDirectory_of_leaf free ?_ ?_ location
      · rintro ⟨inner, found⟩
        rw [gone] at found
        cases found
      · intro other differ
        rw [removeAt, lookup_filter_ne, if_neg differ]
    | cons next rest =>
      unfold removeAt
      split
      · next inner held =>
        rw [hasDirectory_cons_of_lookup held] at free
        exact hasDirectory_put held (ih free) location
      · rfl

end Children

namespace FileTree

variable {tree before after : FileTree} {path source target : String} {bytes : Bytes}

def hasPlace (tree : FileTree) (path : String) : Bool := (tree.placeFor path).isOk

theorem hasDirectory_of_follow {here next : List String} {segment : String}
    (done : tree.follow here segment = .ok next) : tree.top.HasDirectory here := by
  unfold follow at done
  split at done
  · next children there => exact ⟨children, there⟩
  · cases done
  · cases done

structure Alike (before after : FileTree) : Prop where
  working : after.working = before.working
  directories : ∀ location,
    after.top.HasDirectory location ↔ before.top.HasDirectory location

namespace Alike

theorem symm (alike : Alike before after) : Alike after before :=
  ⟨alike.working.symm, fun location => (alike.directories location).symm⟩

theorem start (alike : Alike before after) (path : String) :
    after.start path = before.start path := by
  rw [FileTree.start, FileTree.start, alike.working]

theorem directory (alike : Alike before after) {here : List String} {inner : Children}
    (there : before.top.nodeAt here = some (.directory inner)) :
    ∃ now, after.top.nodeAt here = some (.directory now) :=
  (alike.directories here).2 ⟨inner, there⟩

theorem followAll (alike : Alike before after) {segments : List String} {here there : List String}
    (done : segments.foldlM before.follow here = .ok there)
    (directory : before.top.HasDirectory there) :
    segments.foldlM after.follow here = .ok there := by
  induction segments generalizing here with
  | nil => exact done
  | cons segment rest ih =>
    rw [List.foldlM_cons] at done ⊢
    obtain ⟨next, first, done⟩ := Except.bind_eq_ok.1 done
    have between : before.top.HasDirectory next := by
      cases rest with
      | nil =>
        cases done
        exact directory
      | cons other rest =>
        rw [List.foldlM_cons] at done
        obtain ⟨_, second, _⟩ := Except.bind_eq_ok.1 done
        exact hasDirectory_of_follow second
    have step : after.follow here segment = .ok next := by
      refine follow_of_follow first (fun _ there => alike.directory there) fun _ _ _ => ?_
      obtain ⟨now, found⟩ := (alike.directories next).2 between
      exact ⟨_, found⟩
    rw [step]
    exact ih done

theorem placed (alike : Alike before after) {above : List String} {name : String}
    (placed : before.Placed path above name) : after.Placed path above name := by
  obtain ⟨inner, there, free⟩ := placed.room
  have followed := alike.followAll placed.followed ⟨inner, there⟩
  rw [← alike.start path] at followed
  obtain ⟨now, there'⟩ := alike.directory there
  refine ⟨placed.usable, followed, placed.last, placed.named, placed.short, now, there', ?_⟩
  intro under held
  rw [← Children.nodeAt_append_of_directory there'] at held
  obtain ⟨was, found⟩ := (alike.directories _).1 ⟨under, held⟩
  rw [Children.nodeAt_append_of_directory there] at found
  exact free was found

end Alike

theorem Placed.placeFor {above : List String} {name : String}
    (placed : tree.Placed path above name) : tree.placeFor path = .ok (above ++ [name]) := by
  obtain ⟨inner, there, free⟩ := placed.room
  unfold FileTree.placeFor
  refine Except.bind_eq_ok.2 ⟨_, placed.usable, Except.bind_eq_ok.2 ⟨above, placed.followed, ?_⟩⟩
  -- `free` decides the last match: no directory has the name.
  simp only [placed.last, there, if_neg placed.named, if_neg placed.short]
  rfl

theorem Placed.not_hasDirectory {above : List String} {name : String}
    (placed : tree.Placed path above name) : ¬ tree.top.HasDirectory (above ++ [name]) := by
  rintro ⟨under, found⟩
  obtain ⟨inner, there, free⟩ := placed.room
  rw [Children.nodeAt_append_of_directory there] at found
  exact free under found

theorem hasPlace_iff : tree.hasPlace path ↔ ∃ above name, tree.Placed path above name := by
  constructor
  · intro room
    unfold hasPlace at room
    cases found : tree.placeFor path with
    | error fault =>
      rw [found] at room
      cases room
    | ok place =>
      obtain ⟨above, name, placed, -⟩ := placed_of_placeFor found
      exact ⟨above, name, placed⟩
  · rintro ⟨above, name, placed⟩
    rw [hasPlace, placed.placeFor]
    rfl

theorem Alike.hasPlace_iff (alike : Alike before after) :
    after.hasPlace path ↔ before.hasPlace path := by
  rw [FileTree.hasPlace_iff, FileTree.hasPlace_iff]
  constructor
  · rintro ⟨above, name, placed⟩
    exact ⟨above, name, alike.symm.placed placed⟩
  · rintro ⟨above, name, placed⟩
    exact ⟨above, name, alike.placed placed⟩

theorem exists_write :
    (∃ after, tree.write path bytes = .ok after) ↔ tree.hasPlace path := by
  unfold write put hasPlace
  cases tree.placeFor path with
  | error fault => simp [bind, Except.bind, Except.isOk, Except.toBool]
  | ok place => simp [bind, Except.bind, pure, Except.pure, Except.isOk, Except.toBool]

theorem alike_of_write (done : tree.write path bytes = .ok after) : Alike tree after := by
  unfold write put at done
  obtain ⟨place, found, done⟩ := Except.bind_eq_ok.1 done
  cases done
  obtain ⟨above, name, placed, rfl⟩ := placed_of_placeFor found
  exact ⟨rfl, Children.hasDirectory_putAt (rfl : (FileNode.file bytes).contents? = some bytes)
    placed.not_hasDirectory⟩

theorem exists_move (readable : tree.read source = .ok bytes) :
    (∃ after, tree.move source target = .ok after) ↔ tree.hasPlace target := by
  obtain ⟨location, node, located, found, -⟩ := read_eq_ok.1 readable
  unfold move hasPlace
  rw [located]
  cases tree.placeFor target with
  | error fault => simp [bind, Except.bind, Except.isOk, Except.toBool]
  | ok place => simp [bind, Except.bind, pure, Except.pure, Except.isOk, Except.toBool, found]

theorem read_of_move (readable : tree.read source = .ok bytes)
    (done : tree.move source target = .ok after) : after.read target = .ok bytes := by
  obtain ⟨location, node, located, found, filed⟩ := read_eq_ok.1 readable
  unfold move at done
  obtain ⟨here, located', done⟩ := Except.bind_eq_ok.1 done
  obtain rfl := Except.ok.inj (located.symm.trans located')
  obtain ⟨place, room, done⟩ := Except.bind_eq_ok.1 done
  simp only [found] at done
  cases done
  obtain ⟨above, name, placed, rfl⟩ := placed_of_placeFor room
  have gone : Alike tree { tree with top := tree.top.removeAt location } :=
    ⟨rfl, Children.hasDirectory_removeAt (Children.not_hasDirectory_of_nodeAt found filed)⟩
  exact (read_of_putAt (gone.placed placed) filed).2

end FileTree

end ClassRenaming
