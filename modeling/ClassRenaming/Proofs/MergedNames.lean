import ClassRenaming.Proofs.AnalysisEnds
import ClassRenaming.Proofs.RelabeledMerges

/-!
The names of merged types. What two references have in common is the name of a class or of an array,
as the references are, as long as the hierarchy has names of classes above the classes of both; a
merge takes any other name from there as it is.
-/

namespace ClassRenaming

/-- A notion of the name of a class. Such a name is not one of an array and can stand in a
descriptor, and the top class has one. -/
structure ClassNames where
  IsClass : String → Prop
  plain : ∀ {name : String}, IsClass name → IsPlain name
  proper : ∀ {name : String}, IsClass name → ProperName name
  top : IsClass objectName

/-- The name of a class, or the descriptor of an array of a class or of a base type. -/
inductive ClassNames.WellFormed (names : ClassNames) : String → Prop where
  | plain {name : String} : names.IsClass name → WellFormed names name
  | classArray {dimensions : Nat} {element : String} : dimensions ≠ 0 → names.IsClass element →
    WellFormed names (arrayName dimensions element)
  | baseArray {dimensions : Nat} (type : BaseType) : dimensions ≠ 0 →
    WellFormed names ((FieldType.base type).arrays dimensions).render

def classOf? (name : String) : Option String :=
  if IsPlain name then some name
  else Descriptor.internalName? (String.ofList (splitArray name.toList).2)

theorem classOf?_plain {name : String} (plain : IsPlain name) : classOf? name = some name :=
  if_pos plain

theorem classOf?_arrayName {dimensions : Nat} (nonzero : dimensions ≠ 0) (element : String) :
    classOf? (arrayName dimensions element) = .some element := by
  rw [classOf?, if_neg (not_isPlain_arrayName nonzero), element_arrayName nonzero]

def SharedAbove (table : String → TypeMetadata) (a b name : String) : Prop :=
  ∃ x ∈ classOf? a, ∃ y ∈ classOf? b, Above table x name ∧ Above table y name

/-! Arrays of base types. -/

theorem splitArray_baseArray (type : BaseType) (dimensions : Nat) :
    splitArray ((FieldType.base type).arrays dimensions).render.toList =
      (dimensions, [type.letter]) := by
  have other : type.letter ≠ '[' := by cases type <;> decide
  rw [FieldType.render, String.toList_ofList, chars_arrays]
  exact splitArray_brackets dimensions other []

theorem not_isPlain_baseArray (type : BaseType) {dimensions : Nat} (nonzero : dimensions ≠ 0) :
    ¬ IsPlain ((FieldType.base type).arrays dimensions).render := by
  rwa [IsPlain, splitArray_baseArray]

theorem classOf?_baseArray (type : BaseType) {dimensions : Nat} (nonzero : dimensions ≠ 0) :
    classOf? ((FieldType.base type).arrays dimensions).render = none := by
  rw [classOf?, if_neg (not_isPlain_baseArray type nonzero), splitArray_baseArray]
  cases type <;> simp [Descriptor.internalName?, BaseType.letter]

theorem ClassNames.WellFormed.isClass {names : ClassNames} {name element : String}
    (wellFormed : names.WellFormed name) (core : classOf? name = some element) :
    names.IsClass element := by
  cases wellFormed with
  | plain isClass =>
    rw [classOf?_plain (names.plain isClass)] at core
    cases core
    exact isClass
  | classArray nonzero isClass =>
    rw [classOf?_arrayName nonzero] at core
    cases core
    exact isClass
  | baseArray type nonzero =>
    rw [classOf?_baseArray type nonzero] at core
    cases core

section Merging

variable {hierarchy : Hierarchy} {table : String → TypeMetadata} {names : ClassNames}

theorem wellFormed_topArray (dimensions : Nat) :
    names.WellFormed (arrayName dimensions objectName) := by
  by_cases zero : dimensions = 0
  · rw [zero]
    exact .plain names.top
  · exact .classArray zero names.top

theorem ensures_isClass_commonAncestor {a b : String}
    (above : ∀ name, Above table a name → Above table b name → names.IsClass name) :
    Ensures hierarchy table (hierarchy.commonAncestor a b) names.IsClass := by
  refine (ensures_commonAncestor a b).mono ?_
  rintro _ ⟨cache, -, rfl⟩
  have sides : (Above table a (ancestorIn table (hierarchy.steps cache) a b) ∧
      Above table b (ancestorIn table (hierarchy.steps cache) a b)) ∨ _ :=
    above_ancestorIn (hierarchy.steps cache) a b
  rcases sides with ⟨left, right⟩ | top
  · exact above _ left right
  · rw [top]
    exact names.top

theorem ensures_wellFormed_mergeReferences {a b : String} (left : names.WellFormed a)
    (right : names.WellFormed b) (above : ∀ name, SharedAbove table a b name → names.IsClass name) :
    Ensures hierarchy table (hierarchy.mergeReferences a b) names.WellFormed := by
  have classes {x y : String} (ofA : classOf? a = some x) (ofB : classOf? b = some y) :
      Ensures hierarchy table (hierarchy.mergeReferences x y) names.IsClass := by
    rw [Twins.mergeReferences_of_plain hierarchy (names.plain (left.isClass ofA))
      (names.plain (right.isClass ofB))]
    exact ensures_isClass_commonAncestor fun name fromX fromY =>
      above name ⟨x, ofA, y, ofB, fromX, fromY⟩
  by_cases both : IsPlain a ∧ IsPlain b
  · exact (classes (classOf?_plain both.1) (classOf?_plain both.2)).mono fun _ => .plain
  by_cases one : IsPlain a ∨ IsPlain b
  · rw [Twins.mergeReferences_of_mixed hierarchy both one]
    exact .pure (.plain names.top)
  obtain ⟨arrayA, arrayB⟩ := not_or.1 one
  have elementA : classOf? a = _ := if_neg arrayA
  have elementB : classOf? b = _ := if_neg arrayB
  by_cases elements : (classOf? a).isSome ∧ (classOf? b).isSome
  · obtain ⟨x, ofA⟩ := Option.isSome_iff_exists.1 elements.1
    obtain ⟨y, ofB⟩ := Option.isSome_iff_exists.1 elements.2
    rw [Twins.mergeReferences_of_elements hierarchy arrayA arrayB (elementA ▸ ofA) (elementB ▸ ofB)]
    split
    · exact .map (classes ofA ofB) fun _ => .classArray arrayA
    · exact .pure (wellFormed_topArray _)
  · rw [Twins.mergeReferences_of_base hierarchy arrayA arrayB]
    · exact .pure (wellFormed_topArray _)
    · intro x y ofA ofB
      rw [← elementA] at ofA
      rw [← elementB] at ofB
      exact elements ⟨by rw [ofA]; rfl, by rw [ofB]; rfl⟩

theorem ensures_wellFormed_mergeTypes {a b : VerificationType} (left : a.Named names.WellFormed)
    (right : b.Named names.WellFormed)
    (above : ∀ x y, a = .object x → b = .object y →
      ∀ name, SharedAbove table x y name → names.IsClass name) :
    Ensures hierarchy table (hierarchy.mergeTypes a b) (VerificationType.Named names.WellFormed) := by
  unfold Hierarchy.mergeTypes
  split
  · exact .pure left
  · split
    · exact .pure right
    · exact .pure left
    · next x y _ =>
      exact .bind (ensures_wellFormed_mergeReferences left right (above x y rfl rfl))
        fun result named => .pure named
    · exact .pure trivial

end Merging

/-- Merging gives an upper bound of two slots, the slot itself if they are equal, and a well-formed
name if theirs are and all that is above the classes of both is a class. -/
theorem mergeTypes_bound (hierarchy : Hierarchy) (cache : MetadataCache) (names : ClassNames)
    (a b : VerificationType) :
    IsBound (hierarchy.view cache) a b (hierarchy.mergeTypes a b cache).1 ∧
      (a = b → (hierarchy.mergeTypes a b cache).1 = a) ∧
      (a.Named names.WellFormed → b.Named names.WellFormed →
        (∀ x y, a = .object x → b = .object y →
          ∀ name, SharedAbove (hierarchy.view cache) x y name → names.IsClass name) →
        (hierarchy.mergeTypes a b cache).1.Named names.WellFormed) := by
  refine ⟨(ensures_mergeTypes a b cache rfl).1, ?_, ?_⟩
  · rintro rfl
    unfold Hierarchy.mergeTypes
    rw [if_pos rfl]
    rfl
  · intro left right above
    exact (ensures_wellFormed_mergeTypes left right above cache rfl).1

def ClassNames.all : ClassNames where
  IsClass name := IsPlain name ∧ ProperName name
  plain := And.left
  proper := And.right
  top := by decide

instance (name : String) : Decidable (ClassNames.all.IsClass name) :=
  inferInstanceAs (Decidable (IsPlain name ∧ ProperName name))

theorem above_fallback {a name : String} (above : Above TypeMetadata.fallback a name) :
    name = a ∨ name = objectName := by
  cases above with
  | refl => exact .inl rfl
  | tail _ declared =>
    rcases declared with super | interface
    · rw [TypeMetadata.fallback] at super
      split at super
      · cases super
      · exact .inr (Option.some.inj super).symm
    · cases interface

theorem arrays_merge :
    IsBound ((Hierarchy.mk .empty none).view .empty) (.object "[LA;") (.object "[LB;")
        ((Hierarchy.mk .empty none).mergeTypes (.object "[LA;") (.object "[LB;") .empty).1 ∧
      ((Hierarchy.mk .empty none).mergeTypes (.object "[LA;") (.object "[LB;") .empty).1.Named
        ClassNames.all.WellFormed := by
  have array {element : String} (isClass : ClassNames.all.IsClass element) :
      ClassNames.all.WellFormed (arrayName 1 element) := .classArray one_ne_zero isClass
  obtain ⟨bound, -, named⟩ := mergeTypes_bound (Hierarchy.mk .empty none) .empty ClassNames.all
    (.object (arrayName 1 "A")) (.object (arrayName 1 "B"))
  refine ⟨bound, named (array (by decide)) (array (by decide)) ?_⟩
  rintro _ _ ⟨⟩ ⟨⟩ name ⟨x, ofA, y, ofB, above, other⟩
  rw [classOf?_arrayName one_ne_zero] at ofA ofB
  cases ofA
  cases ofB
  rcases above_fallback above with rfl | rfl
  · decide
  · decide

/-- Two classes whose superclass has the name of no class and of no array. -/
def bracketSource : ClassSource :=
  .ofClasses [("A", headerBytes 0x41 0x5B), ("B", headerBytes 0x42 0x5B)]

theorem ClassNames.not_wellFormed_bracket (names : ClassNames) : ¬ names.WellFormed "[" := by
  intro wellFormed
  have split : splitArray "[".toList = (1, []) := by decide
  generalize "[" = name at *
  cases wellFormed with
  | plain isClass =>
    have plain := names.plain isClass
    rw [IsPlain, split] at plain
    cases plain
  | classArray nonzero _ =>
    rw [splitArray_arrayName nonzero] at split
    cases split
  | baseArray type _ =>
    rw [splitArray_baseArray] at split
    cases split

theorem bracketSource_merges :
    ClassNames.all.WellFormed "A" ∧ ClassNames.all.WellFormed "B" ∧
      ((Hierarchy.mk bracketSource none).mergeTypes (.object "A") (.object "B") .empty).1 =
        .object "[" ∧
      ∀ names : ClassNames, ¬ names.WellFormed "[" := by
  refine ⟨.plain (by decide), .plain (by decide), ?_, ClassNames.not_wellFormed_bracket⟩
  have merges : (Hierarchy.mk bracketSource none).mergeTypes (.object "A") (.object "B") =
      (do return .object (← (Hierarchy.mk bracketSource none).commonAncestor "A" "B")) := by
    rw [← Twins.mergeReferences_of_plain _ (by decide) (by decide)]
    unfold Hierarchy.mergeTypes
    rw [if_neg (by decide)]
  rw [merges]
  decide +kernel

end ClassRenaming
