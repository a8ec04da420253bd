import ClassRenaming.Frames.Merging
import ClassRenaming.Proofs.HierarchyView
import Mathlib.Data.List.Basic
import Mathlib.Data.List.TakeWhile

/-!
The order of verification types, and merging as an upper bound in it. The order is the least one
that has the declared supertypes, arrays of them, and every array below the arrays of the top class
with fewer dimensions; nothing is said of cycles, so it need not be antisymmetric.
-/

namespace ClassRenaming

inductive Below (table : String → TypeMetadata) : VerificationType → VerificationType → Prop where
  | refl (type : VerificationType) : Below table type type
  | trans {a b c : VerificationType} : Below table a b → Below table b c → Below table a c
  | top (type : VerificationType) : Below table type .top
  | null (name : String) : Below table .null (.object name)
  | root (name : String) : Below table (.object name) (.object objectName)
  | declared {a b : String} : DeclaredAbove table a b → Below table (.object a) (.object b)
  | element {a b : String} {dimensions : Nat} : 0 < dimensions →
      Below table (.object a) (.object b) →
      Below table (.object (arrayName dimensions a)) (.object (arrayName dimensions b))
  | lower {name : String} {dimensions : Nat} : 0 < dimensions →
      dimensions < (splitArray name.toList).1 →
      Below table (.object name) (.object (arrayName dimensions objectName))

namespace Below

variable {table : String → TypeMetadata}

theorem of_above {a b : String} (h : Above table a b) : Below table (.object a) (.object b) := by
  induction h with
  | refl => exact .refl _
  | tail _ step ih => exact .trans ih (.declared step)

end Below

theorem takeWhile_bracket (name : List Char) :
    name.takeWhile (· == '[') = List.replicate (splitArray name).1 '[' := by
  refine List.eq_replicate_iff.2 ⟨rfl, fun c member => ?_⟩
  simpa using List.mem_takeWhile_imp member

theorem splitArray_append (name : List Char) :
    List.replicate (splitArray name).1 '[' ++ (splitArray name).2 = name := by
  rw [← takeWhile_bracket]
  exact List.takeWhile_append_dropWhile

theorem toList_of_internalName? {text name : String}
    (found : Descriptor.internalName? text = some name) :
    text.toList = 'L' :: name.toList ++ [';'] := by
  unfold Descriptor.internalName? at found
  split at found
  · next rest chars =>
    split at found
    · next last =>
      simp only [Option.some.injEq] at found
      rw [chars, ← found, String.toList_ofList, List.cons_append]
      rw [List.dropLast_append_getLast? ';' last]
    · cases found
  · cases found

theorem eq_arrayName {name element : String} (dimensions : (splitArray name.toList).1 ≠ 0)
    (found : Descriptor.internalName? (String.ofList (splitArray name.toList).2) = some element) :
    name = arrayName (splitArray name.toList).1 element := by
  have inner := toList_of_internalName? found
  rw [String.toList_ofList] at inner
  apply String.toList_inj.1
  rw [arrayName, if_neg dimensions]
  conv => lhs; rw [← splitArray_append name.toList, inner]
  simp [String.toList_append]

section Merging

variable {hierarchy : Hierarchy} {table : String → TypeMetadata}

def IsBound (table : String → TypeMetadata) (a b result : VerificationType) : Prop :=
  Below table a result ∧ Below table b result

theorem isBound_commonAncestor {steps : Nat} (a b : String) :
    IsBound table (.object a) (.object b) (.object (ancestorIn table steps a b)) := by
  have sides : (Above table a _ ∧ Above table b _) ∨ _ := above_ancestorIn steps a b
  rcases sides with ⟨left, right⟩ | top
  · exact ⟨.of_above left, .of_above right⟩
  · rw [top]
    exact ⟨.root a, .root b⟩

theorem below_sharedDimensions {name : String} {element : Option String} {other : Nat}
    (found : Descriptor.internalName? (String.ofList (splitArray name.toList).2) = element)
    (nonzero : (splitArray name.toList).1 ≠ 0)
    (le : other ≤ if element.isSome then (splitArray name.toList).1
      else (splitArray name.toList).1 - 1) :
    Below table (.object name) (.object (arrayName other objectName)) := by
  by_cases zero : other = 0
  · subst zero
    exact .root name
  · by_cases fewer : other < (splitArray name.toList).1
    · exact .lower (by omega) fewer
    · cases element with
      | none => simp at le; omega
      | some element =>
        have equal : other = (splitArray name.toList).1 := by simp at le; omega
        conv => lhs; rw [eq_arrayName nonzero found]
        rw [equal]
        exact .element (by omega) (.root element)

theorem isBound_sharedDimensions {a b : String} {x y : Option String}
    (left : (splitArray a.toList).1 ≠ 0) (right : (splitArray b.toList).1 ≠ 0)
    (hx : Descriptor.internalName? (String.ofList (splitArray a.toList).2) = x)
    (hy : Descriptor.internalName? (String.ofList (splitArray b.toList).2) = y) :
    IsBound table (.object a) (.object b) (.object (arrayName
      (sharedDimensions (splitArray a.toList).1 (splitArray b.toList).1 x.isSome y.isSome)
      objectName)) := by
  refine ⟨below_sharedDimensions hx left ?_, below_sharedDimensions hy right ?_⟩
  all_goals
    unfold sharedDimensions
    split_ifs <;> omega

theorem ensures_mergeReferences (a b : String) :
    Ensures hierarchy table (hierarchy.mergeReferences a b)
      fun result => IsBound table (.object a) (.object b) (.object result) := by
  induction length : a.toList.length using Nat.strongRecOn generalizing a b with
  | ind n ih =>
    rw [Hierarchy.mergeReferences]
    split
    · refine .mono (ensures_commonAncestor a b) ?_
      rintro result ⟨cache, _, rfl⟩
      exact isBound_commonAncestor a b
    · next different =>
      split
      · exact .pure ⟨.root a, .root b⟩
      · next arrays =>
        push Not at arrays
        split
        · next x y hx hy =>
          split
          · next same =>
            have shorter : x.toList.length < n := by
              have inner := length_internalName? hx
              have rest : (splitArray a.toList).2.length ≤ a.toList.length :=
                (List.dropWhile_suffix (· == '[') (l := a.toList)).length_le
              simp only [String.toList_ofList] at inner
              omega
            refine .map (ih _ shorter x y rfl) ?_
            rintro result ⟨left, right⟩
            have dims : 0 < (splitArray a.toList).1 := by omega
            have array := eq_arrayName arrays.1 hx
            have other := eq_arrayName arrays.2 hy
            rw [← same] at other
            refine ⟨?_, ?_⟩
            · conv => lhs; rw [array]
              exact .element dims left
            · conv => lhs; rw [other]
              exact .element dims right
          · refine .pure ?_
            have bound : IsBound table (.object a) (.object b) _ :=
              isBound_sharedDimensions arrays.1 arrays.2 hx hy
            exact bound
        · exact .pure (isBound_sharedDimensions arrays.1 arrays.2 rfl rfl)

theorem ensures_mergeTypes (a b : VerificationType) :
    Ensures hierarchy table (hierarchy.mergeTypes a b) (IsBound table a b) := by
  unfold Hierarchy.mergeTypes
  split
  · next same =>
    subst same
    exact .pure ⟨.refl a, .refl a⟩
  · split
    · exact .pure ⟨.null _, .refl _⟩
    · exact .pure ⟨.refl _, .null _⟩
    · next x y _ =>
      exact .bind (ensures_mergeReferences x y) fun result bound => .pure bound
    · exact .pure ⟨.top a, .top b⟩

end Merging

def slotAt (slots : List VerificationType) (index : Nat) : VerificationType :=
  slots[index]?.getD .top

@[simp] theorem slotAt_nil (index : Nat) : slotAt [] index = .top := rfl

@[simp] theorem slotAt_cons_zero (slot : VerificationType) (rest : List VerificationType) :
    slotAt (slot :: rest) 0 = slot := rfl

@[simp] theorem slotAt_cons_succ (slot : VerificationType) (rest : List VerificationType)
    (index : Nat) : slotAt (slot :: rest) (index + 1) = slotAt rest index := rfl

theorem slotAt_zero (slots : List VerificationType) : slotAt slots 0 = slots.head?.getD .top := by
  cases slots <;> rfl

theorem slotAt_tail (slots : List VerificationType) (index : Nat) :
    slotAt slots.tail index = slotAt slots (index + 1) := by
  cases slots <;> rfl

def SlotsBelow (table : String → TypeMetadata) (a b : List VerificationType) : Prop :=
  ∀ index, Below table (slotAt a index) (slotAt b index)

theorem SlotsBelow.refl (table : String → TypeMetadata) (slots : List VerificationType) :
    SlotsBelow table slots slots := fun _ => .refl _

theorem SlotsBelow.trans {table : String → TypeMetadata} {a b c : List VerificationType}
    (first : SlotsBelow table a b) (second : SlotsBelow table b c) : SlotsBelow table a c :=
  fun index => .trans (first index) (second index)

structure StateBelow (table : String → TypeMetadata) (a b : FrameState) : Prop where
  height : a.stack.length = b.stack.length
  locals : SlotsBelow table a.locals b.locals
  stack : SlotsBelow table a.stack b.stack

theorem StateBelow.refl (table : String → TypeMetadata) (state : FrameState) :
    StateBelow table state state := ⟨rfl, .refl table _, .refl table _⟩

theorem StateBelow.trans {table : String → TypeMetadata} {a b c : FrameState}
    (first : StateBelow table a b) (second : StateBelow table b c) : StateBelow table a c :=
  ⟨first.height.trans second.height, first.locals.trans second.locals,
    first.stack.trans second.stack⟩

section MergingStates

variable {hierarchy : Hierarchy} {table : String → TypeMetadata}

theorem ensures_slotAt_mergeSlots {related : VerificationType → VerificationType → VerificationType → Prop}
    (beyond : related .top .top .top)
    (merges : ∀ a b, Ensures hierarchy table (hierarchy.mergeTypes a b) (related a b))
    (a b : List VerificationType) :
    Ensures hierarchy table (hierarchy.mergeSlots a b) fun merged =>
      merged.length = max a.length b.length ∧
        ∀ index, related (slotAt a index) (slotAt b index) (slotAt merged index) := by
  induction a generalizing b with
  | nil =>
    unfold Hierarchy.mergeSlots
    induction b with
    | nil =>
      rw [List.mapM_nil]
      exact .pure ⟨rfl, fun _ => beyond⟩
    | cons y ys ih =>
      rw [List.mapM_cons]
      refine .bind (merges .top y) fun z here => ?_
      refine .bind ih fun zs there => .pure ⟨?_, fun index => ?_⟩
      · simp [there.1]
      · cases index with
        | zero => exact here
        | succ index => exact there.2 index
  | cons x xs ih =>
    refine .bind (merges x (b.head?.getD .top)) fun z here => ?_
    refine .bind (ih b.tail) fun zs there => .pure ⟨?_, fun index => ?_⟩
    · simp only [List.length_cons, there.1, List.length_tail]
      omega
    · cases index with
      | zero => rwa [slotAt_zero b]
      | succ index =>
        rw [← slotAt_tail b]
        exact there.2 index

theorem ensures_mergeSlots (a b : List VerificationType) :
    Ensures hierarchy table (hierarchy.mergeSlots a b) fun merged =>
      merged.length = max a.length b.length ∧
        SlotsBelow table a merged ∧ SlotsBelow table b merged := by
  refine .mono (ensures_slotAt_mergeSlots ⟨.refl _, .refl _⟩ ensures_mergeTypes a b) ?_
  rintro merged ⟨length, slots⟩
  exact ⟨length, fun index => (slots index).1, fun index => (slots index).2⟩

theorem ensures_mergeStates {recorded incoming : FrameState}
    (height : recorded.stack.length = incoming.stack.length) :
    Ensures hierarchy table (hierarchy.mergeStates recorded incoming) fun merged =>
      StateBelow table recorded merged ∧ StateBelow table incoming merged ∧
        recorded.locals.length ≤ merged.locals.length := by
  refine .bind (ensures_mergeSlots recorded.locals incoming.locals) fun locals sides => ?_
  refine .bind (ensures_mergeSlots recorded.stack incoming.stack) fun stack slots => ?_
  have same : stack.length = recorded.stack.length := by
    rw [slots.1, ← height, Nat.max_self]
  refine .pure ⟨⟨same.symm, sides.2.1, slots.2.1⟩, ⟨?_, sides.2.2, slots.2.2⟩, ?_⟩
  · rw [same, height]
  · change recorded.locals.length ≤ locals.length
    omega

end MergingStates

end ClassRenaming
