import ClassRenaming.Text.Split

/-!
Paths as texts. A path is made of segments between slashes; empty segments and single dots lead
nowhere, but stay in the text until a path is taken apart.
-/

namespace ClassRenaming.Path

def joinSegments (segments : List String) : String :=
  String.ofList (['/'].intercalate (segments.map String.toList))

def segments (path : String) : List String := (splitOn '/' path.toList).map String.ofList

def isAbsolute (path : String) : Bool := path.toList.head? == some '/'

def isIdle (segment : String) : Bool := segment == "" || segment == "."

/-- The segments that say where a path leads. A dot in front says that the path is relative. -/
def components (path : String) : List String :=
  match segments path with
  | "." :: rest => "." :: rest.filter (!isIdle ·)
  | all =>
    let named := all.filter (!isIdle ·)
    if isAbsolute path then "/" :: named else named

def Same (a b : String) : Prop := components a = components b

instance (a b : String) : Decidable (Same a b) := inferInstanceAs (Decidable (_ = _))

def fileName? (path : String) : Option String :=
  match (components path).getLast? with
  | some name => if name = "/" ∨ name = "." ∨ name = ".." then none else some name
  | none => none

/-- A file name as what stands before its last dot and what stands behind it. A dot in front is no
such dot. -/
def splitName (name : String) : String × Option String :=
  let chars := name.toList
  let extension := (chars.reverse.takeWhile (· ≠ '.')).reverse
  let stem := chars.take (chars.length - extension.length - 1)
  if '.' ∈ chars ∧ stem ≠ [] then (String.ofList stem, some (String.ofList extension))
  else (name, none)

def extension? (path : String) : Option String :=
  (fileName? path).bind fun name => (splitName name).2

def dropIdle (segments : List String) : List String :=
  (segments.reverse.dropWhile isIdle).reverse

def parent (path : String) : String :=
  match segments path with
  | [] => path
  | first :: rest =>
    let front := dropIdle (dropIdle rest).dropLast
    if isAbsolute path then "/" ++ joinSegments front
    else if dropIdle rest = [] then ""
    else joinSegments (first :: front)

def join (base path : String) : String :=
  if base = "" ∨ isAbsolute path then path
  else if base.toList.getLast? = some '/' then base ++ path
  else base ++ "/" ++ path

def withExtension (path extension : String) : String :=
  let named := dropIdle (segments path)
  match fileName? path with
  | some name => joinSegments (named.dropLast ++ [(splitName name).1 ++ "." ++ extension])
  | none => path

end ClassRenaming.Path
