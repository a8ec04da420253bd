import ClassRenaming.FileTree.Basic
import ClassRenaming.Proofs.Reading
import Mathlib.Data.List.Basic

/-!
What is read from a tree after files were written to it. A file that is written is read back, and no
other file changes; directories stay directories, so a path that led somewhere goes on to lead there.
-/

namespace ClassRenaming

namespace Children

theorem lookup_cons (name other : String) (node : FileNode) (rest : Children) :
    List.lookup other ((name, node) :: rest) =
      if other = name then some node else rest.lookup other := by
  rw [List.lookup_cons]
  by_cases asked : other = name
  · simp [asked]
  · rw [if_neg asked, beq_eq_false_iff_ne.2 asked]

theorem lookup_put (name other : String) (node : FileNode) (children : Children) :
    (put name node children).lookup other =
      if other = name then some node else children.lookup other := by
  induction children with
  | nil => rw [put, lookup_cons]
  | cons child rest ih =>
    obtain ⟨here, old⟩ := child
    rw [lookup_cons]
    unfold put
    split
    · next same =>
      subst same
      rw [lookup_cons]
      by_cases asked : other = name <;> simp [asked]
    · next differ =>
      split
      · rw [lookup_cons, lookup_cons]
      · rw [lookup_cons, ih]
        by_cases asked : other = here
        · simp [asked, Ne.symm differ]
        · simp [asked]

theorem nodeAt_cons {name : String} {rest : List String} (more : rest ≠ []) (children : Children) :
    nodeAt (name :: rest) children =
      match children.lookup name with
      | some (.directory inner) => nodeAt rest inner
      | _ => none := by
  cases rest with
  | nil => exact absurd rfl more
  | cons next rest => rfl

theorem nodeAt_of_directory {name : String} {children inner : Children}
    (held : children.lookup name = some (.directory inner)) (rest : List String) :
    nodeAt (name :: rest) children = nodeAt rest inner := by
  cases rest with
  | nil => simpa [nodeAt] using held
  | cons next rest => simp [nodeAt, held]

theorem putAt_of_directory {name : String} {children inner : Children} {rest : List String}
    (held : children.lookup name = some (.directory inner)) (more : rest ≠ []) (node : FileNode) :
    putAt (name :: rest) node children =
      put name (.directory (putAt rest node inner)) children := by
  cases rest with
  | nil => exact absurd rfl more
  | cons next rest => simp [putAt, held]

theorem putAt_of_none {name : String} {children : Children} {rest : List String}
    (more : rest ≠ [])
    (held : ∀ inner, children.lookup name ≠ some (.directory inner)) (node : FileNode) :
    putAt (name :: rest) node children = children := by
  cases rest with
  | nil => exact absurd rfl more
  | cons next rest => simp only [putAt]

theorem lookup_of_nodeAt {name : String} {rest : List String} (more : rest ≠ [])
    {children : Children} {node : FileNode} (found : nodeAt (name :: rest) children = some node) :
    ∃ inner, children.lookup name = some (.directory inner) ∧ nodeAt rest inner = some node := by
  rw [nodeAt_cons more] at found
  split at found
  · next inner held => exact ⟨inner, held, found⟩
  · cases found

theorem lookup_of_directory {name : String} {rest : List String} {children inner : Children}
    (found : nodeAt (name :: rest) children = some (.directory inner)) :
    ∃ under, children.lookup name = some (.directory under) ∧
      nodeAt rest under = some (.directory inner) := by
  cases rest with
  | nil => exact ⟨inner, found, rfl⟩
  | cons next rest => exact lookup_of_nodeAt (List.cons_ne_nil _ _) found

theorem nodeAt_append_of_directory {location : List String} {children inner : Children}
    (above : nodeAt location children = some (.directory inner)) (name : String) :
    nodeAt (location ++ [name]) children = inner.lookup name := by
  induction location generalizing children with
  | nil =>
    simp only [nodeAt, Option.some.injEq, FileNode.directory.injEq] at above
    rw [above]
    rfl
  | cons first rest ih =>
    obtain ⟨under, held, below⟩ := lookup_of_directory above
    rw [List.cons_append, nodeAt_of_directory held]
    exact ih below

theorem nodeAt_putAt {location : List String} {name : String} {children inner : Children}
    (above : nodeAt location children = some (.directory inner)) (node : FileNode) :
    nodeAt (location ++ [name]) (putAt (location ++ [name]) node children) = some node := by
  induction location generalizing children with
  | nil => simp [putAt, nodeAt, lookup_put]
  | cons first rest ih =>
    obtain ⟨under, held, below⟩ := lookup_of_directory above
    have put : (put first (.directory (putAt (rest ++ [name]) node under)) children).lookup first =
        some (.directory (putAt (rest ++ [name]) node under)) := by
      rw [lookup_put, if_pos rfl]
    rw [List.cons_append, putAt_of_directory held (by simp), nodeAt_of_directory put]
    exact ih below

theorem nodeAt_putAt_of_ne {place other : List String} {node found : FileNode}
    {children : Children} (elsewhere : ¬ place <+: other)
    (there : nodeAt other children = some found) :
    ∃ now, nodeAt other (putAt place node children) = some now ∧
      now.contents? = found.contents? := by
  induction place generalizing other children with
  | nil => exact absurd List.nil_prefix elsewhere
  | cons name rest ih =>
    cases other with
    | nil =>
      simp only [nodeAt, Option.some.injEq] at there
      subst there
      exact ⟨_, rfl, rfl⟩
    | cons first others =>
      have beside (inner : FileNode) (differ : first ≠ name) :
          nodeAt (first :: others) (put name inner children) = some found := by
        cases others with
        | nil => simpa [nodeAt, lookup_put, differ] using there
        | cons next others => simpa [nodeAt, lookup_put, differ] using there
      by_cases more : rest = []
      · subst more
        refine ⟨found, beside node ?_, rfl⟩
        rintro rfl
        exact elsewhere ⟨others, rfl⟩
      · cases held : children.lookup name with
        | none => exact ⟨found, by rwa [putAt_of_none more (by simp [held])], rfl⟩
        | some child =>
          cases child with
          | file bytes => exact ⟨found, by rwa [putAt_of_none more (by simp [held])], rfl⟩
          | program output => exact ⟨found, by rwa [putAt_of_none more (by simp [held])], rfl⟩
          | directory inner =>
            rw [putAt_of_directory held more]
            by_cases same : first = name
            · subst same
              rw [nodeAt_of_directory held] at there
              obtain ⟨now, here, contents⟩ :=
                ih (fun front => elsewhere ((List.prefix_cons_inj first).2 front)) there
              refine ⟨now, ?_, contents⟩
              rw [nodeAt_of_directory (by rw [lookup_put, if_pos rfl])]
              exact here
            · exact ⟨found, beside _ same, rfl⟩

theorem directory_of_prefix {place other : List String} {children : Children} {found : FileNode}
    (below : place <+: other) (differ : place ≠ other)
    (there : nodeAt other children = some found) :
    ∃ inner, nodeAt place children = some (.directory inner) := by
  induction place generalizing other children with
  | nil => exact ⟨children, rfl⟩
  | cons name rest ih =>
    obtain ⟨behind, rfl⟩ := below
    have more : rest ++ behind ≠ [] := by
      intro empty
      obtain ⟨rfl, rfl⟩ := List.append_eq_nil_iff.1 empty
      exact differ (by simp)
    obtain ⟨inner, held, under⟩ := lookup_of_nodeAt more there
    rw [nodeAt_of_directory held]
    exact ih (List.prefix_append _ _) (by simpa using differ) under

end Children

theorem FileNode.contents?_eq_none {node : FileNode} :
    node.contents? = none ↔ ∃ inner, node = .directory inner := by
  cases node <;> simp [contents?]

def Path.lead (location : List String) (segment : String) : List String :=
  if Path.isIdle segment then location
  else if segment = ".." then location.dropLast
  else location ++ [segment]

namespace FileTree

variable {before after tree : FileTree} {path : String} {here place : List String}
  {bytes : Bytes}

def location (tree : FileTree) (path : String) : List String :=
  (Path.segments path).foldl Path.lead (tree.start path)

theorem segments_eq_ok {segments : List String} (done : FileTree.segments path = .ok segments) :
    segments = Path.segments path := by
  unfold FileTree.segments at done
  split at done
  · cases done
    rfl
  · cases done

theorem eq_lead_of_follow {segment : String} {next : List String}
    (done : tree.follow here segment = .ok next) : next = Path.lead here segment := by
  unfold follow at done
  split at done
  · unfold Path.lead
    repeat' (first | cases done | split at done)
    all_goals simp_all
  · cases done
  · cases done

theorem eq_lead_of_followAll {segments : List String} {next : List String}
    (done : segments.foldlM tree.follow here = .ok next) :
    next = segments.foldl Path.lead here := by
  induction segments generalizing here with
  | nil =>
    cases done
    rfl
  | cons segment rest ih =>
    rw [List.foldlM_cons] at done
    obtain ⟨between, first, done⟩ := Except.bind_eq_ok.1 done
    rw [List.foldl_cons, ← eq_lead_of_follow first]
    exact ih done

/-- A tree after a change that leaves the contents of the `kept` locations alone and makes no
directory a file or the other way round. -/
structure Keeps (kept : List String → Prop) (before after : FileTree) : Prop where
  working : after.working = before.working
  found : ∀ {location node}, before.top.nodeAt location = some node →
    ∃ now, after.top.nodeAt location = some now ∧
      (now.contents? = none ↔ node.contents? = none) ∧
        (kept location → now.contents? = node.contents?)

namespace Keeps

variable {kept more : List String → Prop} {later : FileTree}

theorem refl (kept : List String → Prop) (tree : FileTree) : Keeps kept tree tree :=
  ⟨rfl, fun there => ⟨_, there, Iff.rfl, fun _ => rfl⟩⟩

theorem trans (first : Keeps kept before after) (second : Keeps kept after later) :
    Keeps kept before later := by
  refine ⟨second.working.trans first.working, fun there => ?_⟩
  obtain ⟨between, there, shape, same⟩ := first.found there
  obtain ⟨now, there, shape', same'⟩ := second.found there
  exact ⟨now, there, shape'.trans shape, fun held => (same' held).trans (same held)⟩

theorem mono (keeps : Keeps kept before after) (fewer : ∀ location, more location → kept location) :
    Keeps more before after := by
  refine ⟨keeps.working, fun there => ?_⟩
  obtain ⟨now, there, shape, same⟩ := keeps.found there
  exact ⟨now, there, shape, fun held => same (fewer _ held)⟩

theorem directory (keeps : Keeps kept before after) {children : Children}
    (there : before.top.nodeAt here = some (.directory children)) :
    ∃ now, after.top.nodeAt here = some (.directory now) := by
  obtain ⟨now, found, shape, -⟩ := keeps.found there
  obtain ⟨inner, rfl⟩ := FileNode.contents?_eq_none.1 (shape.2 rfl)
  exact ⟨inner, found⟩

theorem start (keeps : Keeps kept before after) (path : String) :
    after.start path = before.start path := by
  rw [FileTree.start, FileTree.start, keeps.working]

theorem location (keeps : Keeps kept before after) (path : String) :
    after.location path = before.location path := by
  rw [FileTree.location, FileTree.location, keeps.start]

end Keeps

structure Placed (tree : FileTree) (path : String) (above : List String) (name : String) : Prop where
  usable : FileTree.segments path = .ok (Path.segments path)
  followed : (Path.segments path).dropLast.foldlM tree.follow (tree.start path) = .ok above
  last : (Path.segments path).getLast? = some name
  named : ¬ (Path.isIdle name ∨ name = "..")
  short : ¬ longestName < name.utf8ByteSize
  room : ∃ inner, tree.top.nodeAt above = some (.directory inner) ∧
    ∀ under, inner.lookup name ≠ some (.directory under)

theorem placed_of_placeFor (done : tree.placeFor path = .ok place) :
    ∃ above name, tree.Placed path above name ∧ place = above ++ [name] := by
  unfold placeFor at done
  obtain ⟨segments, usable, done⟩ := Except.bind_eq_ok.1 done
  obtain rfl := segments_eq_ok usable
  obtain ⟨above, followed, done⟩ := Except.bind_eq_ok.1 done
  split at done
  · next name inner last there =>
    by_cases named : Path.isIdle name ∨ name = ".."
    · rw [if_pos named] at done
      cases done
    · by_cases short : longestName < name.utf8ByteSize
      · rw [if_neg named, if_pos short] at done
        cases done
      · rw [if_neg named, if_neg short] at done
        dsimp only at done
        split at done
        · cases done
        · next free =>
          cases done
          exact ⟨above, name, ⟨usable, followed, last, named, short, inner, there, free⟩, rfl⟩
  · cases done

namespace Placed

variable {name : String} {above : List String}

theorem segments_eq (placed : tree.Placed path above name) :
    Path.segments path = (Path.segments path).dropLast ++ [name] :=
  (List.dropLast_append_getLast? name placed.last).symm

theorem location_eq (placed : tree.Placed path above name) :
    tree.location path = above ++ [name] := by
  rw [location, placed.segments_eq, List.foldl_append, ← eq_lead_of_followAll placed.followed,
    List.foldl_cons, List.foldl_nil, Path.lead, if_neg (fun idle => placed.named (.inl idle)),
    if_neg (fun up => placed.named (.inr up))]

theorem path_ne (placed : tree.Placed path above name) : path ≠ "" := by
  rintro rfl
  have last := placed.last
  have empty : (Path.segments "").getLast? = some "" := by decide
  rw [empty, Option.some.injEq] at last
  exact placed.named (.inl (by rw [← last]; rfl))

end Placed

theorem follow_of_follow {segment : String} {next : List String}
    (done : before.follow here segment = .ok next)
    (directory : ∀ children, before.top.nodeAt here = some (.directory children) →
      ∃ now, after.top.nodeAt here = some (.directory now))
    (below : next = here ++ [segment] → ∀ node, before.top.nodeAt next = some node →
      ∃ now, after.top.nodeAt next = some now) :
    after.follow here segment = .ok next := by
  unfold FileTree.follow at done ⊢
  split at done
  · next children there =>
    obtain ⟨now, there'⟩ := directory children there
    rw [there']
    dsimp only
    by_cases idle : Path.isIdle segment
    · rwa [if_pos idle] at done ⊢
    · by_cases up : segment = ".."
      · rwa [if_neg idle, if_pos up] at done ⊢
      · by_cases short : longestName < segment.utf8ByteSize
        · rw [if_neg idle, if_neg up, if_pos short] at done
          cases done
        · rw [if_neg idle, if_neg up, if_neg short] at done ⊢
          split at done
          · next held =>
            cases done
            obtain ⟨node, held⟩ := Option.isSome_iff_exists.1 held
            rw [← Children.nodeAt_append_of_directory there] at held
            obtain ⟨found, held⟩ := below rfl node held
            rw [Children.nodeAt_append_of_directory there'] at held
            rw [held, Option.isSome_some, if_pos rfl]
          · cases done
  · cases done
  · cases done

theorem Keeps.follow {kept : List String → Prop} (keeps : Keeps kept before after)
    {segment : String} {next : List String} (done : before.follow here segment = .ok next) :
    after.follow here segment = .ok next := by
  refine follow_of_follow done (fun children there => keeps.directory there) fun _ node there => ?_
  obtain ⟨now, found, -⟩ := keeps.found there
  exact ⟨now, found⟩

theorem Keeps.followAll {kept : List String → Prop} (keeps : Keeps kept before after)
    {segments next : List String} (done : segments.foldlM before.follow here = .ok next) :
    segments.foldlM after.follow here = .ok next := by
  induction segments generalizing here with
  | nil => exact done
  | cons segment rest ih =>
    rw [List.foldlM_cons] at done ⊢
    obtain ⟨between, first, done⟩ := Except.bind_eq_ok.1 done
    rw [keeps.follow first]
    exact ih done

theorem locate_eq_ok : tree.locate path = .ok place ↔
    path ≠ "" ∧ ∃ segments, FileTree.segments path = .ok segments ∧
      segments.foldlM tree.follow (tree.start path) = .ok place := by
  unfold locate
  by_cases empty : path = ""
  · rw [if_pos empty]
    constructor
    · intro done
      cases done
    · exact fun ⟨nonempty, _⟩ => absurd empty nonempty
  · rw [if_neg empty]
    constructor
    · intro done
      exact ⟨empty, Except.bind_eq_ok.1 done⟩
    · exact fun ⟨_, found⟩ => Except.bind_eq_ok.2 found

theorem eq_location_of_locate (done : tree.locate path = .ok place) :
    place = tree.location path := by
  obtain ⟨-, segments, usable, followed⟩ := locate_eq_ok.1 done
  obtain rfl := segments_eq_ok usable
  exact eq_lead_of_followAll followed

theorem read_eq_ok : tree.read path = .ok bytes ↔
    ∃ place node, tree.locate path = .ok place ∧ tree.top.nodeAt place = some node ∧
      node.contents? = some bytes := by
  unfold read find
  constructor
  · intro done
    obtain ⟨node, found, done⟩ := Except.bind_eq_ok.1 done
    obtain ⟨place, located, found⟩ := Except.bind_eq_ok.1 found
    split at found
    · next there =>
      cases found
      split at done
      · next held =>
        cases done
        exact ⟨place, _, located, there, held⟩
      · cases done
    · cases found
  · rintro ⟨place, node, located, there, held⟩
    rw [located]
    simp only [bind, Except.bind, there, pure, Except.pure, held]

theorem Keeps.read {kept : List String → Prop} (keeps : Keeps kept before after)
    (untouched : kept (before.location path)) (readable : before.read path = .ok bytes) :
    after.read path = .ok bytes := by
  obtain ⟨place, node, located, there, held⟩ := read_eq_ok.1 readable
  obtain rfl := eq_location_of_locate located
  obtain ⟨nonempty, segments, usable, followed⟩ := locate_eq_ok.1 located
  obtain ⟨now, there', -, same⟩ := keeps.found there
  refine read_eq_ok.2 ⟨_, now, locate_eq_ok.2 ⟨nonempty, segments, usable, ?_⟩, there',
    (same untouched).trans held⟩
  rw [keeps.start]
  exact keeps.followAll followed

theorem keeps_putAt {above : List String} {name : String} {inner : Children} {node : FileNode}
    {contents : Bytes} (there : tree.top.nodeAt above = some (.directory inner))
    (free : ∀ under, inner.lookup name ≠ some (.directory under))
    (filed : node.contents? = some contents) :
    Keeps (· ≠ above ++ [name]) tree
      { tree with top := tree.top.putAt (above ++ [name]) node } := by
  refine ⟨rfl, fun {location held} found => ?_⟩
  by_cases same : above ++ [name] = location
  · subst same
    refine ⟨node, Children.nodeAt_putAt there node, ?_, fun other => absurd rfl other⟩
    rw [filed, FileNode.contents?_eq_none]
    constructor
    · intro nothing
      cases nothing
    · rintro ⟨under, rfl⟩
      rw [Children.nodeAt_append_of_directory there] at found
      exact absurd found (free under)
  · have beside : ¬ above ++ [name] <+: location := by
      intro front
      obtain ⟨under, below⟩ := Children.directory_of_prefix front same found
      rw [Children.nodeAt_append_of_directory there] at below
      exact free under below
    obtain ⟨now, found', contents⟩ := Children.nodeAt_putAt_of_ne beside found
    exact ⟨now, found', by rw [contents], fun _ => contents⟩

theorem follow_of_nodeAt {above : List String} {name : String} {inner : Children} {node : FileNode}
    (there : tree.top.nodeAt above = some (.directory inner))
    (named : ¬ (Path.isIdle name ∨ name = "..")) (short : ¬ longestName < name.utf8ByteSize)
    (held : tree.top.nodeAt (above ++ [name]) = some node) :
    tree.follow above name = .ok (above ++ [name]) := by
  rw [Children.nodeAt_append_of_directory there] at held
  unfold follow
  rw [there]
  dsimp only
  rw [if_neg (fun idle => named (.inl idle)), if_neg (fun up => named (.inr up)), if_neg short,
    held, Option.isSome_some, if_pos rfl]

theorem read_of_putAt {above : List String} {name : String} {node : FileNode}
    (placed : tree.Placed path above name) (filed : node.contents? = some bytes) :
    Keeps (· ≠ tree.location path) tree
        { tree with top := tree.top.putAt (above ++ [name]) node } ∧
      ({ tree with top := tree.top.putAt (above ++ [name]) node } : FileTree).read path =
        .ok bytes := by
  obtain ⟨inner, there, free⟩ := placed.room
  have keeps := keeps_putAt there free filed
  rw [placed.location_eq]
  refine ⟨keeps, read_eq_ok.2 ⟨above ++ [name], node, locate_eq_ok.2 ⟨placed.path_ne, _,
    placed.usable, ?_⟩, Children.nodeAt_putAt there _, filed⟩⟩
  rw [placed.segments_eq, List.foldlM_append, keeps.start]
  refine Except.bind_eq_ok.2 ⟨above, keeps.followAll placed.followed, ?_⟩
  rw [List.foldlM_cons]
  refine Except.bind_eq_ok.2 ⟨above ++ [name], ?_, rfl⟩
  obtain ⟨now, there'⟩ := keeps.directory there
  exact follow_of_nodeAt there' placed.named placed.short (Children.nodeAt_putAt there _)

theorem read_of_write (done : tree.write path bytes = .ok after) :
    Keeps (· ≠ tree.location path) tree after ∧ after.read path = .ok bytes := by
  unfold write put at done
  obtain ⟨place, found, done⟩ := Except.bind_eq_ok.1 done
  cases done
  obtain ⟨above, name, placed, rfl⟩ := placed_of_placeFor found
  exact read_of_putAt placed rfl

/-! Directories that are made. -/

theorem keeps_putAt_of_none {node : FileNode} (free : tree.top.nodeAt place = none) :
    Keeps (fun _ => True) tree { tree with top := tree.top.putAt place node } := by
  refine ⟨rfl, fun {location held} found => ?_⟩
  have beside : ¬ place <+: location := by
    intro front
    by_cases same : place = location
    · subst same
      rw [free] at found
      cases found
    · obtain ⟨under, below⟩ := Children.directory_of_prefix front same found
      rw [free] at below
      cases below
  obtain ⟨now, found', contents⟩ := Children.nodeAt_putAt_of_ne beside found
  exact ⟨now, found', by rw [contents], fun _ => contents⟩

theorem keeps_of_makeStep {state next : FileTree × List String} {segment : String}
    (done : makeStep state segment = .ok next) : Keeps (fun _ => True) state.1 next.1 := by
  obtain ⟨tree, here⟩ := state
  unfold makeStep at done
  dsimp only at done
  split at done
  · cases done
    exact .refl _ _
  · split at done
    · cases done
      exact .refl _ _
    · split at done
      · cases done
      · split at done
        · cases done
          exact .refl _ _
        · cases done
        · next free =>
          cases done
          exact keeps_putAt_of_none free

theorem keeps_of_makeSteps {segments : List String} {state next : FileTree × List String}
    (done : segments.foldlM makeStep state = .ok next) :
    Keeps (fun _ => True) state.1 next.1 := by
  induction segments generalizing state with
  | nil =>
    cases done
    exact .refl _ _
  | cons segment rest ih =>
    rw [List.foldlM_cons] at done
    obtain ⟨between, first, done⟩ := Except.bind_eq_ok.1 done
    exact (keeps_of_makeStep first).trans (ih done)

theorem keeps_of_makeDirectory (done : tree.makeDirectory path = .ok after) :
    Keeps (fun _ => True) tree after := by
  unfold makeDirectory at done
  obtain ⟨segments, -, done⟩ := Except.bind_eq_ok.1 done
  obtain ⟨state, made, done⟩ := Except.bind_eq_ok.1 done
  cases done
  exact keeps_of_makeSteps made

end FileTree

end ClassRenaming
