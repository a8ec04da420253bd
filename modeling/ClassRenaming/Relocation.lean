import ClassRenaming.ClassFile.Writing
import ClassRenaming.Frames.Recomputing
import ClassRenaming.Sites.Collisions
import ClassRenaming.Sites.Listing
import ClassRenaming.Sites.Mapping

/-!
Relocating a class: all its references to renamed namespaces follow them. A class without such a
reference keeps its bytes. The metadata learned for one class is there for the next, also when a
relocation fails.
-/

namespace ClassRenaming

inductive FrameStrategy where
  /-- Frames and maxima are computed anew. -/
  | safe
  /-- The frames that are there are renamed. -/
  | fast
  deriving DecidableEq, Repr, Inhabited

structure RelocationOptions where
  strategy : FrameStrategy
  /-- Classes that lie in a renamed namespace themselves are left alone. -/
  skipSource : Bool
  deriving DecidableEq, Repr, Inhabited

def RelocationOptions.default : RelocationOptions := { strategy := .safe, skipSource := true }

inductive RelocationError where
  | parse (name : String) (cause : FormatError)
  | encode (name : String) (cause : FormatError)
  | frames (name method : String) (cause : FrameError)
  deriving DecidableEq, Repr, Inhabited

def FrameError.message (error : FrameError) : String :=
  "at offset " ++ toString error.offset ++ ": " ++ error.fault.message

def RelocationError.message : RelocationError → String
  | parse name cause => "failed to parse " ++ name ++ ": " ++ cause.message
  | encode name cause => "failed to encode " ++ name ++ ": " ++ cause.message
  | frames name method cause =>
    "failed to compute frames for " ++ name ++ "." ++ method ++ " " ++ cause.message

structure Relocated where
  bytes : Bytes
  changed : Bool
  /-- The number of renamed sites. -/
  sites : Nat
  deriving DecidableEq, Repr, Inhabited

def Relocated.unchanged (bytes : Bytes) : Relocated := { bytes, changed := false, sites := 0 }

structure Relocator where
  table : Renaming
  hierarchy : Hierarchy
  options : RelocationOptions

abbrev Relocating := ExceptT RelocationError Resolving

/-- The class with every site renamed, where names that fall together are listed once. -/
def ClassModel.relocate (table : Renaming) (model : ClassModel) : ClassModel :=
  (model.rename table).settle

namespace Relocator

/-- Recomputes the frames of a body. Subroutines have no frames, so code with them keeps its own. -/
def recomputeBody (context : FrameContext) (name : String) (major : UInt16) (member : Member)
    (body : Code) : Relocating Code := do
  if body.hasSubroutines then return body
  else
    match ← (body.recompute context major member).run with
    | .ok body => return body
    | .error cause => throw (.frames name (member.name ++ member.descriptor) cause)

def recomputeMember (context : FrameContext) (name : String) (major : UInt16) (member : Member) :
    Relocating Member := do
  let attributes ← member.attributes.mapM fun
    | .code body => .code <$> recomputeBody context name major member body
    | other => pure other
  return { member with attributes }

def recomputeFrames (relocator : Relocator) (name : String) (model : ClassModel) :
    Relocating ClassModel := do
  discard <| Hierarchy.seed (.ofHeader model.toClassHeader)
  let context := { hierarchy := relocator.hierarchy, owner := model.name }
  let methods ← model.methods.mapM (recomputeMember context name model.major)
  return { model with methods }

/-- Whether a class is left alone for the namespace that it lies in. `hint` is its name, if that is
known without a look. -/
def skips (relocator : Relocator) (hint : Option String) (bytes : Bytes) :
    Except FormatError Bool := do
  if relocator.options.skipSource then
    match hint with
    | some name => return relocator.table.inSource name
    | none => return relocator.table.inSource (← ClassHeader.parse bytes).name
  else return false

def relocateFile (relocator : Relocator) (name : String) (bytes : Bytes) (file : ClassFile) :
    Relocating Relocated := do
  let sites := file.model.siteCount relocator.table
  if sites = 0 then return .unchanged bytes
  else
    let model := file.model.relocate relocator.table
    let model ←
      match relocator.options.strategy with
      | .safe => relocator.recomputeFrames name model
      | .fast => pure model
    match ClassFile.toBytes { file with model } with
    | .ok bytes => return { bytes, changed := true, sites }
    | .error cause => throw (.encode name cause)

def relocate (relocator : Relocator) (hint : Option String) (bytes : Bytes) :
    Relocating Relocated := do
  let refuse {α : Type} (cause : FormatError) : Relocating α :=
    throw (.parse (hint.getD "<unnamed>") cause)
  match relocator.skips hint bytes with
  | .error cause => refuse cause
  | .ok true => return .unchanged bytes
  | .ok false =>
    match ClassFile.parse bytes with
    | .error cause => refuse cause
    | .ok file => relocator.relocateFile (hint.getD file.model.name) bytes file

def relocateAll (relocator : Relocator) (classes : List Bytes) :
    Resolving (List (Except RelocationError Relocated)) :=
  classes.mapM fun bytes => (relocator.relocate none bytes).run

end Relocator

end ClassRenaming
