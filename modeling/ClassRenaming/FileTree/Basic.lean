import ClassRenaming.Bytes
import ClassRenaming.FileTree.Path

/-!
A tree of files. Children are kept in the order of their names. A program that matters here prints
one text, so the text is all that is known of it.
-/

namespace ClassRenaming

inductive FileNode where
  | file (bytes : Bytes)
  | program (output : String)
  | directory (children : List (String × FileNode))
  deriving Inhabited

abbrev Children := List (String × FileNode)

def FileNode.contents? : FileNode → Option Bytes
  | file bytes => some bytes
  | program output => some output.toUTF8.toList
  | directory _ => none

inductive PathFault where
  | missing
  | notADirectory
  | isADirectory
  | unusableName
  deriving DecidableEq, Repr, Inhabited

namespace Children

def put (name : String) (node : FileNode) : Children → Children
  | [] => [(name, node)]
  | (other, old) :: rest =>
    if name = other then (name, node) :: rest
    else if name < other then (name, node) :: (other, old) :: rest
    else (other, old) :: put name node rest

def nodeAt : List String → Children → Option FileNode
  | [], children => some (.directory children)
  | [name], children => children.lookup name
  | name :: rest, children =>
    match children.lookup name with
    | some (.directory inner) => nodeAt rest inner
    | _ => none

def putAt : List String → FileNode → Children → Children
  | [], _, children => children
  | [name], node, children => put name node children
  | name :: rest, node, children =>
    match children.lookup name with
    | some (.directory inner) => put name (.directory (putAt rest node inner)) children
    | _ => children

def removeAt : List String → Children → Children
  | [], children => children
  | [name], children => children.filter (·.1 ≠ name)
  | name :: rest, children =>
    match children.lookup name with
    | some (.directory inner) => put name (.directory (removeAt rest inner)) children
    | _ => children

def files : List String → Children → List (List String × Bytes)
  | _, [] => []
  | above, (name, .file bytes) :: rest => (above ++ [name], bytes) :: files above rest
  | above, (name, .program output) :: rest =>
    (above ++ [name], output.toUTF8.toList) :: files above rest
  | above, (name, .directory inner) :: rest => files (above ++ [name]) inner ++ files above rest

theorem mem_files_of_lookup {children : Children} {name : String} {node : FileNode} {bytes : Bytes}
    (above : List String) (found : children.lookup name = some node)
    (holds : node.contents? = some bytes) : (above ++ [name], bytes) ∈ files above children := by
  induction children with
  | nil => simp at found
  | cons child rest ih =>
    obtain ⟨other, old⟩ := child
    rw [List.lookup_cons] at found
    cases same : name == other with
    | true =>
      simp only [same, Option.some.injEq] at found
      subst found
      rw [beq_iff_eq.1 same]
      cases old <;> simp_all [files, FileNode.contents?]
    | false =>
      simp only [same] at found
      cases old <;> simp [files, ih found]

theorem files_of_lookup {children inner : Children} {name : String} {file : List String × Bytes}
    (above : List String) (found : children.lookup name = some (.directory inner))
    (held : file ∈ files (above ++ [name]) inner) : file ∈ files above children := by
  induction children with
  | nil => simp at found
  | cons child rest ih =>
    obtain ⟨other, old⟩ := child
    rw [List.lookup_cons] at found
    cases same : name == other with
    | true =>
      simp only [same, Option.some.injEq] at found
      subst found
      rw [beq_iff_eq.1 same] at held
      simp [files, held]
    | false =>
      simp only [same] at found
      cases old <;> simp [files, ih found]

theorem mem_files_of_nodeAt {location : List String} {children : Children} {node : FileNode}
    {bytes : Bytes} (above : List String) (found : children.nodeAt location = some node)
    (holds : node.contents? = some bytes) : (above ++ location, bytes) ∈ files above children := by
  induction location generalizing children above with
  | nil =>
    simp only [nodeAt, Option.some.injEq] at found
    subst found
    simp [FileNode.contents?] at holds
  | cons name rest ih =>
    cases rest with
    | nil => exact mem_files_of_lookup above found holds
    | cons next rest =>
      simp only [nodeAt] at found
      split at found
      · next inner held =>
        have below := ih (above ++ [name]) found
        rw [List.append_assoc] at below
        exact files_of_lookup above held below
      · cases found

end Children

structure FileTree where
  top : Children
  /-- The location that relative paths start from. -/
  working : List String
  deriving Inhabited

namespace FileTree

def longestName : Nat := 255

def longestPath : Nat := 4095

def isUsable (path : String) : Bool :=
  path.utf8ByteSize ≤ longestPath && !path.toList.contains '\x00'

def segments (path : String) : Except PathFault (List String) :=
  if isUsable path then .ok (Path.segments path) else .error .unusableName

def start (tree : FileTree) (path : String) : List String :=
  if Path.isAbsolute path then [] else tree.working

def follow (tree : FileTree) (location : List String) (segment : String) :
    Except PathFault (List String) :=
  match tree.top.nodeAt location with
  | some (.directory children) =>
    if Path.isIdle segment then .ok location
    else if segment = ".." then .ok location.dropLast
    else if longestName < segment.utf8ByteSize then .error .unusableName
    else if (children.lookup segment).isSome then .ok (location ++ [segment])
    else .error .missing
  | some _ => .error .notADirectory
  | none => .error .missing

def locate (tree : FileTree) (path : String) : Except PathFault (List String) := do
  if path = "" then throw .missing
  (← segments path).foldlM tree.follow (tree.start path)

def find (tree : FileTree) (path : String) : Except PathFault FileNode := do
  match tree.top.nodeAt (← tree.locate path) with
  | some node => return node
  | none => throw .missing

def isDirectory (tree : FileTree) (path : String) : Bool :=
  match tree.find path with
  | .ok (.directory _) => true
  | _ => false

def isFile (tree : FileTree) (path : String) : Bool :=
  match tree.find path with
  | .ok (.file _) | .ok (.program _) => true
  | _ => false

def read (tree : FileTree) (path : String) : Except PathFault Bytes := do
  match (← tree.find path).contents? with
  | some bytes => return bytes
  | none => throw .isADirectory

def names (tree : FileTree) (path : String) : Except PathFault (List String) := do
  match ← tree.find path with
  | .directory children => return children.map (·.1)
  | _ => throw .notADirectory

def filesBelow (tree : FileTree) (path : String) : Except PathFault (List (String × Bytes)) := do
  match ← tree.find path with
  | .directory children =>
    return (Children.files [] children).map fun (location, bytes) =>
      (Path.joinSegments location, bytes)
  | file => return file.contents?.toList.map fun bytes => ("", bytes)

def allContents (tree : FileTree) : List Bytes := (Children.files [] tree.top).map (·.2)

theorem mem_allContents {tree : FileTree} {path : String} {bytes : Bytes}
    (readable : tree.read path = .ok bytes) : bytes ∈ tree.allContents := by
  unfold read find at readable
  cases located : tree.locate path with
  | error fault => simp [located, bind, Except.bind] at readable
  | ok location =>
    cases found : tree.top.nodeAt location with
    | none =>
      simp [located, found, bind, Except.bind, throw, throwThe, MonadExceptOf.throw] at readable
    | some node =>
      cases holds : node.contents? with
      | none =>
        simp [located, found, holds, bind, Except.bind, pure, Except.pure, throw, throwThe,
          MonadExceptOf.throw] at readable
      | some held =>
        simp only [located, found, holds, bind, Except.bind, pure, Except.pure, Except.ok.injEq]
          at readable
        subst readable
        exact List.mem_map.2 ⟨_, Children.mem_files_of_nodeAt [] found holds, rfl⟩

def makeStep (state : FileTree × List String) (segment : String) :
    Except PathFault (FileTree × List String) :=
  let (tree, location) := state
  if Path.isIdle segment then .ok state
  else if segment = ".." then .ok (tree, location.dropLast)
  else if longestName < segment.utf8ByteSize then .error .unusableName
  else
    let next := location ++ [segment]
    match tree.top.nodeAt next with
    | some (.directory _) => .ok (tree, next)
    | some _ => .error .notADirectory
    | none => .ok ({ tree with top := tree.top.putAt next (.directory []) }, next)

def makeDirectory (tree : FileTree) (path : String) : Except PathFault FileTree := do
  return (← (← segments path).foldlM makeStep (tree, tree.start path)).1

def placeFor (tree : FileTree) (path : String) : Except PathFault (List String) := do
  let segments ← segments path
  let location ← segments.dropLast.foldlM tree.follow (tree.start path)
  match segments.getLast?, tree.top.nodeAt location with
  | some name, some (.directory children) =>
    if Path.isIdle name ∨ name = ".." then throw .isADirectory
    if longestName < name.utf8ByteSize then throw .unusableName
    match children.lookup name with
    | some (.directory _) => throw .isADirectory
    | _ => return location ++ [name]
  | _, _ => throw .notADirectory

def put (tree : FileTree) (path : String) (node : FileNode) : Except PathFault FileTree := do
  return { tree with top := tree.top.putAt (← tree.placeFor path) node }

def write (tree : FileTree) (path : String) (bytes : Bytes) : Except PathFault FileTree :=
  tree.put path (.file bytes)

def move (tree : FileTree) (source target : String) : Except PathFault FileTree := do
  let location ← tree.locate source
  let place ← tree.placeFor target
  match tree.top.nodeAt location with
  | some node => return { tree with top := (tree.top.removeAt location).putAt place node }
  | none => throw .missing

end FileTree

end ClassRenaming
