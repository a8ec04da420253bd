import ClassRenaming.Proofs.NameHeights
import ClassRenaming.Proofs.NamesInTypes

/-!
New names for the classes that an analysis of frames deals with. The name of an array follows the
class in it and a descriptor the classes in it, so reading them and giving new names can be done in
either order.
-/

namespace ClassRenaming

instance (name : String) : Decidable (IsPlain name) :=
  inferInstanceAs (Decidable (_ = _))

/-- New names for classes, no two alike. The classes that frames name whatever the body is keep
theirs, and no new name looks like an array or ends a descriptor. -/
structure Relabeling where
  plain : String → String
  injective : ∀ {a b : String}, IsPlain a → IsPlain b → plain a = plain b → a = b
  fixed : ∀ name ∈ fixedNames, plain name = name
  isPlain : ∀ {name : String}, IsPlain name → IsPlain (plain name)
  proper : ∀ {name : String}, IsPlain name → ProperName (plain name)

/-- A name is a class, or an array of elements of some name or of a base type. -/
inductive NameShape : String → Prop where
  | plain {name : String} : IsPlain name → NameShape name
  | array {dimensions : Nat} (element : String) : dimensions ≠ 0 →
    NameShape (arrayName dimensions element)
  | base {name : String} : ¬ IsPlain name →
    Descriptor.internalName? (String.ofList (splitArray name.toList).2) = none → NameShape name

theorem nameShape (name : String) : NameShape name := by
  by_cases plain : IsPlain name
  · exact .plain plain
  · cases found : Descriptor.internalName? (String.ofList (splitArray name.toList).2) with
    | none => exact .base plain found
    | some element =>
      rw [eq_arrayName plain found]
      exact .array element plain

theorem not_isPlain_iff {name : String} : ¬ IsPlain name ↔ ∃ rest, name.toList = '[' :: rest := by
  unfold IsPlain splitArray
  cases chars : name.toList with
  | nil => simp
  | cons c rest =>
    by_cases opens : c = '['
    · simp [opens]
    · simp [opens]

theorem length_element {name element : String}
    (found : Descriptor.internalName? (String.ofList (splitArray name.toList).2) = some element) :
    element.toList.length < name.toList.length := by
  have shorter := length_internalName? found
  rw [String.toList_ofList] at shorter
  exact shorter.trans_le (List.dropWhile_suffix (· == '[') (l := name.toList)).length_le

def ProperCore (name : String) : Prop :=
  if IsPlain name then ProperName name
  else
    match _found : Descriptor.internalName? (String.ofList (splitArray name.toList).2) with
    | some element => ProperCore element
    | none => True
termination_by name.toList.length
decreasing_by exact length_element _found

/-- An array of a class that can stand in a descriptor, or of a base type, or no array. -/
def WellNamed (name : String) : Prop := IsPlain name ∨ ProperCore name

namespace Relabeling

variable (f : Relabeling)

def name (text : String) : String :=
  if IsPlain text then f.plain text
  else
    match _found : Descriptor.internalName? (String.ofList (splitArray text.toList).2) with
    | some element => arrayName (splitArray text.toList).1 (name element)
    | none => text
termination_by text.toList.length
decreasing_by exact length_element _found

end Relabeling

/-! Names by their shapes. -/

section Names

variable {f : Relabeling} {name element : String} {dimensions : Nat}

theorem not_isPlain_arrayName (nonzero : dimensions ≠ 0) :
    ¬ IsPlain (arrayName dimensions element) := by
  rw [IsPlain, splitArray_arrayName nonzero]
  exact nonzero

theorem element_arrayName (nonzero : dimensions ≠ 0) : Descriptor.internalName?
    (String.ofList (splitArray (arrayName dimensions element).toList).2) = .some element := by
  rw [splitArray_arrayName nonzero]
  exact internalName?_chars element

theorem properCore_plain (plain : IsPlain name) : ProperCore name ↔ ProperName name := by
  rw [ProperCore, if_pos plain]

theorem properCore_array (nonzero : dimensions ≠ 0) :
    ProperCore (arrayName dimensions element) ↔ ProperCore element := by
  rw [ProperCore, if_neg (not_isPlain_arrayName nonzero)]
  split
  · next other found =>
    rw [element_arrayName nonzero] at found
    cases found
    rfl
  · next found =>
    rw [element_arrayName nonzero] at found
    cases found

theorem properCore_base (array : ¬ IsPlain name)
    (base : Descriptor.internalName? (String.ofList (splitArray name.toList).2) = none) :
    ProperCore name := by
  rw [ProperCore, if_neg array]
  split
  · next other found =>
    rw [base] at found
    cases found
  · trivial

theorem name_plain (plain : IsPlain name) : f.name name = f.plain name := by
  rw [Relabeling.name, if_pos plain]

theorem name_array (nonzero : dimensions ≠ 0) :
    f.name (arrayName dimensions element) = arrayName dimensions (f.name element) := by
  rw [Relabeling.name, if_neg (not_isPlain_arrayName nonzero)]
  split
  · next other found =>
    rw [element_arrayName nonzero] at found
    cases found
    rw [splitArray_arrayName nonzero]
  · next found =>
    rw [element_arrayName nonzero] at found
    cases found

theorem name_base (array : ¬ IsPlain name)
    (base : Descriptor.internalName? (String.ofList (splitArray name.toList).2) = none) :
    f.name name = name := by
  rw [Relabeling.name, if_neg array]
  split
  · next other found =>
    rw [base] at found
    cases found
  · rfl

theorem name_arrayName (fixed : f.name element = element) (dimensions : Nat) :
    f.name (arrayName dimensions element) = arrayName dimensions element := by
  by_cases zero : dimensions = 0
  · rw [zero]
    exact fixed
  · rw [name_array zero, fixed]

theorem isPlain_fixed : ∀ name ∈ fixedNames, IsPlain name := by decide

theorem name_fixed (listed : name ∈ fixedNames) : f.name name = name := by
  rw [name_plain (isPlain_fixed name listed), f.fixed name listed]

theorem name_object : f.name objectName = objectName := name_fixed List.mem_cons_self

theorem properCore_object : ProperCore objectName := (properCore_plain (by decide)).2 (by decide)

theorem dimensions_name (f : Relabeling) (name : String) :
    (splitArray (f.name name).toList).1 = (splitArray name.toList).1 := by
  cases nameShape name with
  | plain plain =>
    rw [name_plain plain, show _ = 0 from plain]
    exact f.isPlain plain
  | array element nonzero =>
    rw [name_array nonzero, splitArray_arrayName nonzero, splitArray_arrayName nonzero]
  | base array base => rw [name_base array base]

theorem isPlain_name_iff : IsPlain (f.name name) ↔ IsPlain name := by
  rw [IsPlain, dimensions_name, IsPlain]

theorem element_name (array : ¬ IsPlain name) :
    Descriptor.internalName? (String.ofList (splitArray (f.name name).toList).2) =
      (Descriptor.internalName? (String.ofList (splitArray name.toList).2)).map f.name := by
  cases nameShape name with
  | plain plain => exact absurd plain array
  | array element nonzero =>
    rw [name_array nonzero, element_arrayName nonzero, element_arrayName nonzero]
    rfl
  | base _ base =>
    rw [name_base array base, base]
    rfl

theorem name_injective (f : Relabeling) : Function.Injective f.name := by
  intro a b same
  induction length : a.toList.length using Nat.strongRecOn generalizing a b with
  | ind size ih =>
    have kinds : IsPlain a ↔ IsPlain b := by
      rw [← isPlain_name_iff (f := f), same, isPlain_name_iff]
    by_cases plain : IsPlain a
    · have other := kinds.1 plain
      rw [name_plain plain, name_plain other] at same
      exact f.injective plain other same
    · have array : ¬ IsPlain b := fun other => plain (kinds.2 other)
      have elements := element_name (f := f) plain
      rw [same, element_name array] at elements
      cases left : Descriptor.internalName? (String.ofList (splitArray a.toList).2) with
      | none =>
        rw [left, Option.map_none, Option.map_eq_none_iff] at elements
        rwa [name_base plain left, name_base array elements] at same
      | some x =>
        rw [left, Option.map_some, Option.map_eq_some_iff] at elements
        obtain ⟨y, right, equal⟩ := elements
        have shorter : x.toList.length < size := length ▸ length_element left
        have dimensions : (splitArray a.toList).1 = (splitArray b.toList).1 := by
          rw [← dimensions_name f a, same, dimensions_name]
        rw [eq_arrayName plain left, eq_arrayName array right, dimensions, ih _ shorter equal.symm rfl]

theorem name_eq_iff {a b : String} : f.name a = f.name b ↔ a = b := (name_injective f).eq_iff

theorem name_eq_object_iff : f.name name = objectName ↔ name = objectName := by
  rw [← name_object (f := f), name_eq_iff, name_object]

theorem not_proper_arrayName (nonzero : dimensions ≠ 0) :
    ¬ ProperName (arrayName dimensions element) := by
  rintro ⟨-, closed⟩
  apply closed
  rw [arrayName, if_neg nonzero]
  simp

theorem properCore_of_proper (proper : ProperName name) : ProperCore name := by
  cases nameShape name with
  | plain plain => exact (properCore_plain plain).2 proper
  | array element nonzero => exact absurd proper (not_proper_arrayName nonzero)
  | base array base => exact properCore_base array base

theorem proper_name (proper : ProperName name) : ProperName (f.name name) := by
  cases nameShape name with
  | plain plain =>
    rw [name_plain plain]
    exact f.proper plain
  | array element nonzero => exact absurd proper (not_proper_arrayName nonzero)
  | base array base => rwa [name_base array base]

theorem not_proper_name (array : ¬ IsPlain name) (improper : ¬ ProperName name) :
    ¬ ProperName (f.name name) := by
  cases nameShape name with
  | plain plain => exact absurd plain array
  | array element nonzero =>
    rw [name_array nonzero]
    exact not_proper_arrayName nonzero
  | base _ base => rwa [name_base array base]

end Names

/-! Semicolons spelled in other characters. -/

def escape : List Char → List Char
  | [] => []
  | c :: rest => if c = ';' then '-' :: '1' :: escape rest else c :: '0' :: escape rest

def unescape : List Char → List Char
  | c :: mark :: rest => (if mark = '1' then ';' else c) :: unescape rest
  | _ => []

theorem unescape_escape (chars : List Char) : unescape (escape chars) = chars := by
  induction chars with
  | nil => rfl
  | cons c rest ih =>
    rw [escape]
    split
    · next same => rw [unescape, if_pos rfl, ih, same]
    · rw [unescape, if_neg (by decide), ih]

theorem not_mem_escape (chars : List Char) : ';' ∉ escape chars := by
  induction chars with
  | nil => exact List.not_mem_nil
  | cons c rest ih =>
    rw [escape]
    split
    · simp [ih]
    · next other => simp [ih, Ne.symm other]

def Relabeling.escaping : Relabeling where
  plain name := if name ∈ fixedNames then name else String.ofList ('~' :: escape name.toList)
  injective := by
    intro a b _ _ same
    have first : ∀ name ∈ fixedNames, name.toList.head? ≠ some '~' := by decide
    have apart (name : String) (listed : name ∈ fixedNames) (chars : List Char) :
        name ≠ String.ofList ('~' :: chars) := by
      intro equal
      apply first name listed
      rw [equal, String.toList_ofList]
      rfl
    split_ifs at same with left right right
    · exact same
    · exact absurd same (apart a left _)
    · exact absurd same.symm (apart b right _)
    · have chars := (List.cons.inj (String.ofList_injective same)).2
      rw [← String.toList_inj, ← unescape_escape a.toList, chars, unescape_escape]
  fixed name listed := if_pos listed
  isPlain := by
    intro name plain
    split
    · exact plain
    · rw [IsPlain, String.toList_ofList]
      rfl
  proper := by
    intro name _
    have fixed : ∀ name ∈ fixedNames, ProperName name := by decide
    split
    · next listed => exact fixed name listed
    · constructor
      · intro empty
        have chars := congrArg String.toList empty
        rw [String.toList_ofList] at chars
        cases chars
      · rw [String.toList_ofList, List.mem_cons, not_or]
        exact ⟨by decide, not_mem_escape _⟩

end ClassRenaming
