import ClassRenaming.Proofs.DescriptorGrammar
import Mathlib.Data.String.Basic

/-!
The grammar of descriptors, rule by rule. A type is the tree of a derivation. A text is read just when
it can be derived, and what it is read as is its one derivation.
-/

namespace ClassRenaming

def Descriptor.letters : List (Char × BaseType) :=
  [('B', .byte), ('C', .char), ('D', .double), ('F', .float), ('I', .int), ('J', .long),
    ('S', .short), ('Z', .boolean)]

namespace FieldType

inductive Derives : FieldType → List Char → Prop where
  | base {letter : Char} {type : BaseType} (listed : (letter, type) ∈ Descriptor.letters) :
      Derives (.base type) [letter]
  | object {name : String} (nonempty : name ≠ "") (free : ';' ∉ name.toList) :
      Derives (.object name) ('L' :: name.toList ++ [';'])
  | array {component : FieldType} {text : List Char} (inner : Derives component text) :
      Derives (.array component) ('[' :: text)

inductive DeriveAll : List FieldType → List Char → Prop where
  | nil : DeriveAll [] []
  | cons {first : FieldType} {others : List FieldType} {front back : List Char}
      (here : Derives first front) (behind : DeriveAll others back) :
      DeriveAll (first :: others) (front ++ back)

end FieldType

namespace MethodType

inductive DerivesResult : Option FieldType → List Char → Prop where
  | void : DerivesResult none ['V']
  | value {type : FieldType} {text : List Char} (here : type.Derives text) :
      DerivesResult (some type) text

inductive Derives : MethodType → List Char → Prop where
  | method {parameters : List FieldType} {result : Option FieldType} {inside last : List Char}
      (takes : FieldType.DeriveAll parameters inside) (gives : DerivesResult result last) :
      Derives ⟨parameters, result⟩ ('(' :: inside ++ ')' :: last)

end MethodType

/-! What is derived is printed. -/

theorem Descriptor.mem_letters_iff {letter : Char} {type : BaseType} :
    (letter, type) ∈ letters ↔ type.letter = letter := by
  cases type <;> simp [letters, BaseType.letter, eq_comm]

namespace FieldType

theorem derives_iff {type : FieldType} {text : List Char} :
    type.Derives text ↔ type.Proper ∧ type.chars = text := by
  constructor
  · intro derived
    induction derived with
    | base listed =>
      have printed := Descriptor.mem_letters_iff.1 listed
      simp [Proper, chars, printed]
    | object nonempty free => exact ⟨⟨nonempty, free⟩, rfl⟩
    | array inner ih => simpa [Proper, chars] using ih
  · rintro ⟨proper, rfl⟩
    induction type with
    | base type => exact .base (Descriptor.mem_letters_iff.2 rfl)
    | object name => exact .object proper.1 proper.2
    | array component ih => exact .array (ih proper)

theorem deriveAll_iff {types : List FieldType} {text : List Char} :
    DeriveAll types text ↔ (∀ type ∈ types, type.Proper) ∧ types.flatMap chars = text := by
  constructor
  · intro derived
    induction derived with
    | nil => simp
    | cons here behind ih =>
      obtain ⟨proper, rfl⟩ := derives_iff.1 here
      obtain ⟨others, rfl⟩ := ih
      simp only [List.forall_mem_cons, List.flatMap_cons, and_true]
      exact ⟨proper, others⟩
  · rintro ⟨proper, rfl⟩
    induction types with
    | nil => exact .nil
    | cons first others ih =>
      rw [List.forall_mem_cons] at proper
      rw [List.flatMap_cons]
      exact .cons (derives_iff.2 ⟨proper.1, rfl⟩) (ih proper.2)

end FieldType

namespace MethodType

theorem derivesResult_iff {result : Option FieldType} {text : List Char} :
    DerivesResult result text ↔
      (∀ type ∈ result, type.Proper) ∧ result.elim ['V'] FieldType.chars = text := by
  constructor
  · intro derived
    cases derived with
    | void => simp
    | value here =>
      obtain ⟨proper, rfl⟩ := FieldType.derives_iff.1 here
      simpa using proper
  · rintro ⟨proper, rfl⟩
    cases result with
    | none => exact .void
    | some type => exact .value (FieldType.derives_iff.2 ⟨proper type rfl, rfl⟩)

theorem derives_iff {type : MethodType} {text : List Char} :
    type.Derives text ↔ type.Proper ∧ type.chars = text := by
  constructor
  · intro derived
    cases derived with
    | method takes gives =>
      obtain ⟨parameters, rfl⟩ := FieldType.deriveAll_iff.1 takes
      obtain ⟨result, rfl⟩ := derivesResult_iff.1 gives
      exact ⟨⟨parameters, result⟩, chars_eq _⟩
  · rintro ⟨proper, rfl⟩
    rw [chars_eq]
    exact .method (FieldType.deriveAll_iff.2 ⟨proper.parameters, rfl⟩)
      (derivesResult_iff.2 ⟨proper.result, rfl⟩)

end MethodType

/-! What is derived is read. -/

namespace Descriptor

variable {text : String}

theorem fieldType_eq_ok_iff_derives {type : FieldType} :
    fieldType text = .ok type ↔ type.Derives text.toList := by
  rw [fieldType_eq_ok_iff, FieldType.derives_iff, FieldType.render, String.ofList_eq]

theorem methodType_eq_ok_iff_derives {type : MethodType} :
    methodType text = .ok type ↔ type.Derives text.toList := by
  rw [methodType_eq_ok_iff, MethodType.derives_iff, MethodType.render, String.ofList_eq]

/-- A text is read as a type just when the grammar derives it, and it is read as its only derivation,
which is printed as this text; so it is with methods. -/
theorem reads_iff_derives :
    (∀ text, (∃ type, fieldType text = .ok type) ↔ ∃ type : FieldType, type.Derives text.toList) ∧
    (∀ text type, fieldType text = .ok type → type.Derives text.toList ∧
      (∀ other : FieldType, other.Derives text.toList → other = type) ∧ type.render = text) ∧
    (∀ text, (∃ type, methodType text = .ok type) ↔
      ∃ type : MethodType, type.Derives text.toList) ∧
    ∀ text type, methodType text = .ok type → type.Derives text.toList ∧
      (∀ other : MethodType, other.Derives text.toList → other = type) ∧
        String.ofList ('(' :: (type.parameters.flatMap FieldType.chars ++
          ')' :: type.result.elim ['V'] FieldType.chars)) = text := by
  refine ⟨?_, ?_, ?_, ?_⟩
  · intro text
    simp only [fieldType_eq_ok_iff_derives]
  · intro text type parsed
    refine ⟨fieldType_eq_ok_iff_derives.1 parsed, ?_, (fieldType_eq_ok_iff.1 parsed).2⟩
    intro other derived
    have again := fieldType_eq_ok_iff_derives.2 derived
    rw [parsed] at again
    exact (Except.ok.inj again).symm
  · intro text
    simp only [methodType_eq_ok_iff_derives]
  · intro text type parsed
    refine ⟨methodType_eq_ok_iff_derives.1 parsed, ?_, ?_⟩
    · intro other derived
      have again := methodType_eq_ok_iff_derives.2 derived
      rw [parsed] at again
      exact (Except.ok.inj again).symm
    · rw [← MethodType.chars_eq]
      exact (methodType_eq_ok_iff.1 parsed).2

theorem nestedArrays_derived :
    fieldType "[[Ljava/lang/String;" = .ok (.array (.array (.object "java/lang/String"))) ∧
      (∀ other : FieldType, other.Derives "[[Ljava/lang/String;".toList →
        other = .array (.array (.object "java/lang/String"))) ∧
      methodType "(J[I)V" = .ok ⟨[.base .long, .array (.base .int)], none⟩ ∧
      ∀ other : MethodType, other.Derives "(J[I)V".toList →
        other = ⟨[.base .long, .array (.base .int)], none⟩ := by
  have field : fieldType "[[Ljava/lang/String;" =
      .ok (.array (.array (.object "java/lang/String"))) := by
    decide
  have method : methodType "(J[I)V" = .ok ⟨[.base .long, .array (.base .int)], none⟩ := by decide
  obtain ⟨-, fields, -, methods⟩ := reads_iff_derives
  exact ⟨field, (fields _ _ field).2.1, method, (methods _ _ method).2.1⟩

end Descriptor

end ClassRenaming
