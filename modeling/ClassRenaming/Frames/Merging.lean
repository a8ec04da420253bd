import ClassRenaming.Frames.State
import ClassRenaming.Hierarchy.Resolver

/-!
Where two paths meet, every slot holds what both paths have in common: the same type, a common
ancestor of two references, or nothing.
-/

namespace ClassRenaming

def splitArray (name : List Char) : Nat × List Char :=
  ((name.takeWhile (· == '[')).length, name.dropWhile (· == '['))

/-- An array of the named class; without dimensions it is no array. -/
def arrayName (dimensions : Nat) (name : String) : String :=
  if dimensions = 0 then name
  else String.ofList (List.replicate dimensions '[') ++ "L" ++ name ++ ";"

/-- The dimensions that two arrays have in common as arrays of the top class. An array of a base
type is an object itself only as a whole, one dimension lower. -/
def sharedDimensions (left right : Nat) (leftIsClass rightIsClass : Bool) : Nat :=
  if left = right then left - 1
  else if left < right then if leftIsClass then left else left - 1
  else if rightIsClass then right else right - 1

theorem length_internalName? {text name : String}
    (found : Descriptor.internalName? text = some name) :
    name.toList.length < text.toList.length := by
  unfold Descriptor.internalName? at found
  split at found
  · next rest chars =>
    split at found
    · simp only [Option.some.injEq] at found
      rw [← found, chars]
      simp only [String.toList_ofList, List.length_dropLast, List.length_cons]
      omega
    · simp at found
  · simp at found

namespace Hierarchy

variable (hierarchy : Hierarchy)

def mergeReferences (a b : String) : Resolving String :=
  let left := splitArray a.toList
  let right := splitArray b.toList
  if left.1 = 0 ∧ right.1 = 0 then hierarchy.commonAncestor a b
  else if left.1 = 0 ∨ right.1 = 0 then return objectName
  else
    match _found : Descriptor.internalName? (String.ofList left.2),
        Descriptor.internalName? (String.ofList right.2) with
    | some x, some y =>
      if left.1 = right.1 then return arrayName left.1 (← mergeReferences x y)
      else return arrayName (sharedDimensions left.1 right.1 true true) objectName
    | x, y =>
      return arrayName (sharedDimensions left.1 right.1 x.isSome y.isSome) objectName
termination_by a.toList.length
decreasing_by
  have shorter := length_internalName? _found
  have rest : left.2.length ≤ a.toList.length :=
    (List.dropWhile_suffix (· == '[') (l := a.toList)).length_le
  simp only [String.toList_ofList] at shorter
  omega

def mergeTypes (a b : VerificationType) : Resolving VerificationType :=
  if a = b then return a
  else
    match a, b with
    | .null, .object name | .object name, .null => return .object name
    | .object x, .object y => return .object (← hierarchy.mergeReferences x y)
    | _, _ => return .top

def mergeSlots : List VerificationType → List VerificationType → Resolving (List VerificationType)
  | [], others => others.mapM (hierarchy.mergeTypes .top)
  | a :: rest, others =>
    return (← hierarchy.mergeTypes a (others.head?.getD .top)) :: (← mergeSlots rest others.tail)

def mergeStates (recorded incoming : FrameState) : Resolving FrameState := do
  let locals ← hierarchy.mergeSlots recorded.locals incoming.locals
  let stack ← hierarchy.mergeSlots recorded.stack incoming.stack
  return { locals, stack }

end Hierarchy

end ClassRenaming
