import ClassRenaming.Proofs.MergeHeights
import ClassRenaming.Proofs.WalkBounds
import Mathlib.Data.Set.Card

/-!
Heights for the names of a hierarchy: how many names can come out of merges that begin with a name.
A merge that changes a class leads to a superclass, one that changes an interface leads to another
interface that it extends, so the number falls unless the way up leads back.
-/

namespace ClassRenaming

def IsPlain (name : String) : Prop := (splitArray name.toList).1 = 0

/-- Where merges may lead from a name: for a class up the superclasses, for an interface up the
interfaces. -/
def Climb (table : String → TypeMetadata) (a b : String) : Prop :=
  if (table a).isInterface then InterfaceAbove table a b else SuperAbove table a b

abbrev Reach (table : String → TypeMetadata) : String → String → Prop :=
  Relation.ReflTransGen (Climb table)

/-- What the format wants of a hierarchy, short of an end to its superclasses: interfaces and classes
are not above each other at once, nothing is above the top class, and no array above anything. -/
structure Orderly (table : String → TypeMetadata) : Prop where
  kinds : ∀ a b, Reach table a b → Reach table b a → (table a).isInterface = (table b).isInterface
  top : ∀ b, Climb table objectName b → b = objectName
  plain : ∀ a b, DeclaredAbove table a b → IsPlain b

/-- Two classes, each of which is a superclass of the other. -/
structure Swaps (table : String → TypeMetadata) (a b : String) : Prop where
  distinct : a ≠ b
  plain : IsPlain a ∧ IsPlain b
  classes : (table a).isInterface = false ∧ (table b).isInterface = false
  up : SuperAbove table a b
  back : SuperAbove table b a

theorem isPlain_objectName : IsPlain objectName := by
  unfold IsPlain
  decide

section Walks

variable {table : String → TypeMetadata}

theorem Orderly.climb {a b : String} (orderly : Orderly table) (up : Reach table a b)
    (back : Reach table b a) : Climb table a b := by
  induction up with
  | refl =>
    unfold Climb
    split <;> exact .refl
  | @tail middle c first step ih =>
    have below : Climb table a middle := ih (.trans (.single step) back)
    have kind := orderly.kinds a middle first (.head step back)
    unfold Climb at below step ⊢
    rw [← kind] at step
    split
    · next interface =>
      rw [if_pos interface] at below step
      exact below.trans step
    · next «class» =>
      rw [if_neg «class»] at below step
      exact below.trans step

theorem above_of_climb {a b : String} (climb : Climb table a b) : Above table a b := by
  unfold Climb at climb
  split at climb
  · exact above_of_interfaceAbove climb
  · exact above_of_superAbove climb

theorem above_of_reach {a b : String} (reach : Reach table a b) : Above table a b := by
  induction reach with
  | refl => exact .refl
  | tail _ step ih => exact ih.trans (above_of_climb step)

theorem Orderly.plain_of_climb (orderly : Orderly table) {a b : String} (plain : IsPlain a)
    (climb : Climb table a b) : IsPlain b := by
  rcases (above_of_climb climb).cases_tail with rfl | ⟨middle, -, step⟩
  · exact plain
  · exact orderly.plain middle b step

end Walks

/-! Names without brackets. -/

section Plain

variable {hierarchy : Hierarchy} {table : String → TypeMetadata}

def reached (table : String → TypeMetadata) (name : String) : Set String :=
  insert objectName {other | Reach table name other}

theorem finite_reached (hierarchy : Hierarchy) (cache : MetadataCache) (name : String) :
    (reached (hierarchy.view cache) name).Finite := by
  refine (List.finite_toSet (name :: hierarchy.declared cache)).subset ?_
  rintro other (rfl | reach)
  · exact List.mem_cons_of_mem _ List.mem_cons_self
  · rcases (above_of_reach reach).cases_tail with rfl | ⟨middle, -, step⟩
    · exact List.mem_cons_self
    · exact List.mem_cons_of_mem _ (hierarchy.mem_declared cache step)

noncomputable def plainHeight (table : String → TypeMetadata) (name : String) : Nat :=
  (reached table name).ncard

theorem Orderly.reached_objectName (orderly : Orderly table) :
    reached table objectName = {objectName} := by
  have only : ∀ other, Reach table objectName other → other = objectName := by
    intro other reach
    induction reach with
    | refl => rfl
    | tail _ step ih =>
      subst ih
      exact orderly.top _ step
  refine Set.eq_singleton_iff_unique_mem.2 ⟨Set.mem_insert _ _, ?_⟩
  rintro other (rfl | reach)
  · rfl
  · exact only other reach

theorem Orderly.plainHeight_objectName (orderly : Orderly table) :
    plainHeight table objectName = 1 := by
  rw [plainHeight, orderly.reached_objectName, Set.ncard_singleton]

variable {cache : MetadataCache} (same : hierarchy.view cache = table)

include same

theorem two_le_plainHeight {name : String} (other : name ≠ objectName) :
    2 ≤ plainHeight table name := by
  have finite : (reached table name).Finite := same ▸ finite_reached hierarchy cache name
  have pair : ({name, objectName} : Set String) ⊆ reached table name := by
    rintro member (rfl | rfl)
    · exact .inr .refl
    · exact .inl rfl
  have two := Set.ncard_le_ncard pair finite
  rwa [Set.ncard_pair other] at two

theorem plainHeight_lt {a b : String} (above : Reach table a b) (away : ¬ Reach table b a)
    (other : a ≠ objectName) : plainHeight table b < plainHeight table a := by
  have finite : (reached table a).Finite := same ▸ finite_reached hierarchy cache a
  refine Set.ncard_lt_ncard ⟨?_, fun subset => ?_⟩ finite
  · rintro member (rfl | reach)
    · exact .inl rfl
    · exact .inr (above.trans reach)
  · rcases subset (.inr .refl : a ∈ reached table a) with top | back
    · exact other top
    · exact away back

/-- The first interface that `a` extends and `b` extends too does not lead back to `a`: that would
make `a` itself the first. -/
theorem firstShared_interfaces {a b : String}
    (differs : firstShared (interfacesIn table (hierarchy.steps cache) [] [a])
      (interfacesIn table (hierarchy.steps cache) [] [b]) ≠ a)
    (back : InterfaceAbove table b a) : False := by
  apply differs
  have shared := mem_interfacesIn same back
  have first : ∃ rest, interfacesIn table (hierarchy.steps cache) [] [a] = a :: rest := by
    obtain ⟨steps, eq⟩ := Nat.exists_eq_add_of_lt (declared_lt_steps hierarchy cache).1
    rw [eq, interfacesIn_succ, if_neg List.not_mem_nil]
    exact ⟨_, rfl⟩
  obtain ⟨rest, eq⟩ := first
  rw [firstShared, eq, List.find?_cons_of_pos (by simpa using shared), Option.getD_some]

theorem lowers_top (orderly : Orderly table) (a : String) :
    IsPlain objectName ∧ (objectName = a ∨ plainHeight table objectName < plainHeight table a) := by
  refine ⟨isPlain_objectName, ?_⟩
  by_cases here : objectName = a
  · exact .inl here
  · have two := two_le_plainHeight same (Ne.symm here)
    rw [orderly.plainHeight_objectName]
    exact .inr two

theorem lowers_climb (orderly : Orderly table) {a merged : String} (left : IsPlain a)
    (climb : Climb table a merged) (away : merged ≠ a → ¬ Reach table merged a) :
    IsPlain merged ∧ (merged = a ∨ plainHeight table merged < plainHeight table a) := by
  refine ⟨orderly.plain_of_climb left climb, ?_⟩
  by_cases here : merged = a
  · exact .inl here
  · by_cases root : a = objectName
    · subst root
      exact .inl (orderly.top merged climb)
    · exact .inr (plainHeight_lt same (.single climb) (away here) root)

theorem lowers_superclass (orderly : Orderly table) (straight : ∀ a b, ¬ Swaps table a b)
    {a merged : String} (left : IsPlain a) (kind : (table a).isInterface = false)
    (up : SuperAbove table a merged) :
    IsPlain merged ∧ (merged = a ∨ plainHeight table merged < plainHeight table a) := by
  have climb : Climb table a merged := (if_neg (by simp [kind])).mpr up
  refine lowers_climb same orderly left climb fun differs back => ?_
  have alike := orderly.kinds a _ (.single climb) back
  rw [kind] at alike
  have down := orderly.climb back (.single climb)
  rw [Climb, if_neg (by simp [← alike])] at down
  exact straight a _
    ⟨differs.symm, ⟨left, orderly.plain_of_climb left climb⟩, ⟨kind, alike.symm⟩, up, down⟩

theorem lowers_interface (orderly : Orderly table) {a b merged : String} (left : IsPlain a)
    (kind : (table a).isInterface = true)
    (first : firstShared (interfacesIn table (hierarchy.steps cache) [] [a])
      (interfacesIn table (hierarchy.steps cache) [] [b]) = merged)
    (up : InterfaceAbove table a merged) (across : InterfaceAbove table b merged) :
    IsPlain merged ∧ (merged = a ∨ plainHeight table merged < plainHeight table a) := by
  have climb : Climb table a merged := (if_pos kind).mpr up
  refine lowers_climb same orderly left climb fun differs back => ?_
  have alike := orderly.kinds a merged (.single climb) back
  rw [kind] at alike
  have down := orderly.climb back (.single climb)
  rw [Climb, if_pos alike.symm] at down
  rw [← first] at differs
  exact firstShared_interfaces same differs (across.trans down)

theorem ancestorIn_lowers (orderly : Orderly table) (straight : ∀ a b, ¬ Swaps table a b)
    {a b : String} (left : IsPlain a) :
    IsPlain (ancestorIn table (hierarchy.steps cache) a b) ∧
      (ancestorIn table (hierarchy.steps cache) a b = a ∨
        plainHeight table (ancestorIn table (hierarchy.steps cache) a b) < plainHeight table a) := by
  by_cases equal : a = b
  · subst equal
    rw [ancestorIn_self]
    exact ⟨left, .inl rfl⟩
  · rw [ancestorIn_of_ne table equal]
    cases kindA : (table a).isInterface <;> cases kindB : (table b).isInterface
    · rcases firstShared_mem_or (superclassesIn table (hierarchy.steps cache) [] (some b))
        (superclassesIn table (hierarchy.steps cache) [] (some a)) with ⟨-, member⟩ | isTop
      · obtain ⟨_, ⟨⟩, up⟩ := superAbove_of_mem member
        exact lowers_superclass same orderly straight left kindA up
      · dsimp only
        rw [isTop]
        exact lowers_top same orderly a
    · exact lowers_top same orderly a
    · exact lowers_top same orderly a
    · rcases firstShared_mem_or (interfacesIn table (hierarchy.steps cache) [] [a])
        (interfacesIn table (hierarchy.steps cache) [] [b]) with ⟨member, shared⟩ | isTop
      · obtain ⟨first, listed, up⟩ := interfaceAbove_of_mem member
        obtain ⟨other, waiting, across⟩ := interfaceAbove_of_mem shared
        rw [List.mem_singleton.1 listed] at up
        rw [List.mem_singleton.1 waiting] at across
        exact lowers_interface same orderly left kindA rfl up across
      · dsimp only
        rw [isTop]
        exact lowers_top same orderly a

end Plain

theorem splitArray_brackets (dimensions : Nat) {first : Char} (other : first ≠ '[')
    (rest : List Char) :
    splitArray (List.replicate dimensions '[' ++ first :: rest) = (dimensions, first :: rest) := by
  rw [splitArray, List.takeWhile_append_of_pos, List.dropWhile_append_of_pos]
  · simp [other]
  · intro c member
    simp [List.eq_of_mem_replicate member]
  · intro c member
    simp [List.eq_of_mem_replicate member]

theorem splitArray_arrayName {dimensions : Nat} (nonzero : dimensions ≠ 0) (name : String) :
    splitArray (arrayName dimensions name).toList = (dimensions, 'L' :: name.toList ++ [';']) := by
  have chars : (arrayName dimensions name).toList =
      List.replicate dimensions '[' ++ ('L' :: name.toList ++ [';']) := by
    rw [arrayName, if_neg nonzero]
    simp [String.toList_append]
  rw [chars]
  exact splitArray_brackets dimensions (by decide) _

theorem internalName?_chars (name : String) :
    Descriptor.internalName? (String.ofList ('L' :: name.toList ++ [';'])) = some name := by
  have last : (name.toList ++ [';']).getLast? = some ';' := by simp
  simp only [Descriptor.internalName?, String.toList_ofList, List.cons_append]
  rw [if_pos last, List.dropLast_concat, String.ofList_toList]

def nameHeight (plain : String → Nat) (name : String) : Nat :=
  let split := splitArray name.toList
  if split.1 = 0 then plain name
  else
    match _found : Descriptor.internalName? (String.ofList split.2) with
    | some element => split.1 + nameHeight plain element
    | none => split.1 + 2
termination_by name.toList.length
decreasing_by
  have shorter := length_internalName? _found
  have rest : split.2.length ≤ name.toList.length :=
    (List.dropWhile_suffix (· == '[') (l := name.toList)).length_le
  simp only [String.toList_ofList] at shorter
  omega

section Arrays

variable {plain : String → Nat}

theorem nameHeight_plain {name : String} (isPlain : IsPlain name) :
    nameHeight plain name = plain name := by
  rw [nameHeight]
  exact if_pos isPlain

theorem nameHeight_array {name element : String} (array : (splitArray name.toList).1 ≠ 0)
    (found : Descriptor.internalName? (String.ofList (splitArray name.toList).2) = some element) :
    nameHeight plain name = (splitArray name.toList).1 + nameHeight plain element := by
  rw [nameHeight, if_neg array]
  split
  · next other same =>
    rw [found] at same
    cases same
    rfl
  · next same =>
    rw [found] at same
    cases same

theorem nameHeight_base {name : String} (array : (splitArray name.toList).1 ≠ 0)
    (found : Descriptor.internalName? (String.ofList (splitArray name.toList).2) = none) :
    nameHeight plain name = (splitArray name.toList).1 + 2 := by
  rw [nameHeight, if_neg array]
  split
  · next other same =>
    rw [found] at same
    cases same
  · rfl

theorem nameHeight_arrayName {dimensions : Nat} (nonzero : dimensions ≠ 0) (name : String) :
    nameHeight plain (arrayName dimensions name) = dimensions + nameHeight plain name := by
  have split := splitArray_arrayName nonzero name
  have array : (splitArray (arrayName dimensions name).toList).1 ≠ 0 := by
    rw [split]
    exact nonzero
  rw [nameHeight_array array (by rw [split]; exact internalName?_chars name), split]

structure IsBase (plain : String → Nat) : Prop where
  top : plain objectName = 1
  others : ∀ name, name ≠ objectName → 2 ≤ plain name

theorem one_le_nameHeight (base : IsBase plain) (name : String) : 1 ≤ nameHeight plain name := by
  by_cases isPlain : IsPlain name
  · rw [nameHeight_plain isPlain]
    by_cases top : name = objectName
    · rw [top, base.top]
    · exact Nat.le_of_succ_le (base.others name top)
  · have positive : 1 ≤ (splitArray name.toList).1 := Nat.one_le_iff_ne_zero.2 isPlain
    cases found : Descriptor.internalName? (String.ofList (splitArray name.toList).2) with
    | some element =>
      rw [nameHeight_array isPlain found]
      omega
    | none =>
      rw [nameHeight_base isPlain found]
      omega

theorem two_le_nameHeight (base : IsBase plain) {name : String} (other : name ≠ objectName) :
    2 ≤ nameHeight plain name := by
  by_cases isPlain : IsPlain name
  · rw [nameHeight_plain isPlain]
    exact base.others name other
  · have positive : 1 ≤ (splitArray name.toList).1 := Nat.one_le_iff_ne_zero.2 isPlain
    cases found : Descriptor.internalName? (String.ofList (splitArray name.toList).2) with
    | some element =>
      have inner := one_le_nameHeight base element
      rw [nameHeight_array isPlain found]
      omega
    | none =>
      rw [nameHeight_base isPlain found]
      omega

theorem nameHeight_objectName (base : IsBase plain) : nameHeight plain objectName = 1 := by
  rw [nameHeight_plain isPlain_objectName, base.top]

theorem objectName_lowers (base : IsBase plain) (name : String) :
    objectName = name ∨ nameHeight plain objectName < nameHeight plain name := by
  by_cases here : objectName = name
  · exact .inl here
  · have two := two_le_nameHeight base (Ne.symm here)
    rw [nameHeight_objectName base]
    exact .inr two

theorem shared_lowers (base : IsBase plain) {name : String} {element : Option String} {other : Nat}
    (found : Descriptor.internalName? (String.ofList (splitArray name.toList).2) = element)
    (array : (splitArray name.toList).1 ≠ 0)
    (le : other ≤ if element.isSome then (splitArray name.toList).1
      else (splitArray name.toList).1 - 1) :
    arrayName other objectName = name ∨
      nameHeight plain (arrayName other objectName) < nameHeight plain name := by
  by_cases zero : other = 0
  · subst zero
    exact objectName_lowers base name
  · rw [nameHeight_arrayName zero, nameHeight_objectName base]
    cases element with
    | none =>
      rw [nameHeight_base array found]
      simp only [Option.isSome_none, Bool.false_eq_true, if_false] at le
      refine .inr ?_
      omega
    | some element =>
      simp only [Option.isSome_some, if_true] at le
      have inner := one_le_nameHeight base element
      by_cases top : element = objectName
      · subst top
        by_cases equal : other = (splitArray name.toList).1
        · rw [equal, ← eq_arrayName array found]
          exact .inl rfl
        · rw [nameHeight_array array found]
          refine .inr ?_
          omega
      · have two := two_le_nameHeight base top
        rw [nameHeight_array array found]
        refine .inr ?_
        omega

variable {hierarchy : Hierarchy} {table : String → TypeMetadata}

theorem lowers_mergeReferences (base : IsBase plain)
    (ancestors : ∀ a b, IsPlain a → Ensures hierarchy table (hierarchy.commonAncestor a b)
      fun merged => IsPlain merged ∧ (merged = a ∨ plain merged < plain a)) :
    Lowers hierarchy table (nameHeight plain) := by
  intro a b
  induction length : a.toList.length using Nat.strongRecOn generalizing a b with
  | ind n ih =>
    rw [Hierarchy.mergeReferences]
    split
    · next both =>
      refine .mono (ancestors a b both.1) fun merged found => ?_
      rw [nameHeight_plain both.1, nameHeight_plain found.1]
      exact found.2
    · split
      · exact .pure (objectName_lowers base a)
      · next arrays =>
        push Not at arrays
        split
        · next x y hx hy =>
          split
          · have shorter : x.toList.length < n := by
              have inner := length_internalName? hx
              have rest : (splitArray a.toList).2.length ≤ a.toList.length :=
                (List.dropWhile_suffix (· == '[') (l := a.toList)).length_le
              simp only [String.toList_ofList] at inner
              omega
            refine .map (ih _ shorter x y rfl) fun merged found => ?_
            rw [nameHeight_arrayName arrays.1, nameHeight_array arrays.1 hx]
            rcases found with same | less
            · rw [same]
              exact .inl (eq_arrayName arrays.1 hx).symm
            · refine .inr ?_
              omega
          · refine .pure (shared_lowers base hx arrays.1 ?_)
            simp only [sharedDimensions, Option.isSome_some, if_true]
            split_ifs <;> omega
        · refine .pure (shared_lowers base rfl arrays.1 ?_)
          unfold sharedDimensions
          split_ifs <;> omega

end Arrays

theorem exists_lowers {hierarchy : Hierarchy} {cache : MetadataCache}
    (orderly : Orderly (hierarchy.view cache))
    (straight : ∀ a b, ¬ Swaps (hierarchy.view cache) a b) :
    ∃ height, Lowers hierarchy (hierarchy.view cache) height := by
  refine ⟨nameHeight (plainHeight (hierarchy.view cache)), lowers_mergeReferences ⟨?_, ?_⟩ ?_⟩
  · exact orderly.plainHeight_objectName
  · intro name other
    exact two_le_plainHeight rfl other
  · intro a b isPlain
    refine .mono (ensures_commonAncestor a b) ?_
    rintro merged ⟨cache', same, rfl⟩
    exact ancestorIn_lowers same orderly straight isPlain

end ClassRenaming
