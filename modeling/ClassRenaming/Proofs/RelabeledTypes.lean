import ClassRenaming.Proofs.Relabeling

/-!
Types and descriptors with new names for their classes. Reading a descriptor gives the type with new
names if and only if the old one is read, and so for the elements of an array.
-/

namespace ClassRenaming

section Types

namespace FieldType

def relabel (f : Relabeling) : FieldType → FieldType
  | base type => base type
  | object name => object (f.name name)
  | array component => array (component.relabel f)

def arrays (type : FieldType) : Nat → FieldType
  | 0 => type
  | dimensions + 1 => array (type.arrays dimensions)

end FieldType

namespace MethodType

def relabel (f : Relabeling) (type : MethodType) : MethodType :=
  ⟨type.parameters.map (FieldType.relabel f), type.result.map (FieldType.relabel f)⟩

end MethodType

variable {f : Relabeling} {type : FieldType}

theorem FieldType.relabel_eq (f : Relabeling) (type : FieldType) :
    type.relabel f = type.mapNames f.name := by
  induction type with
  | base type => rfl
  | object name => rfl
  | array component ih => exact congrArg array ih

theorem MethodType.relabel_eq (f : Relabeling) (type : MethodType) :
    type.relabel f = type.mapNames f.name := by
  rw [relabel, funext (FieldType.relabel_eq f)]
  rfl

theorem FieldType.Proper.relabel (proper : type.Proper) : (type.relabel f).Proper := by
  rw [relabel_eq]
  exact proper.mapNames fun _ => proper_name

theorem MethodType.Proper.relabel {type : MethodType} (proper : type.Proper) :
    (type.relabel f).Proper := by
  rw [relabel_eq]
  exact proper.mapNames fun _ => proper_name

theorem FieldType.slots_relabel (f : Relabeling) (type : FieldType) :
    (type.relabel f).slots = type.slots := by
  rw [relabel_eq, slots_mapNames]

theorem MethodType.parameterSlots_relabel (f : Relabeling) (type : MethodType) :
    (type.relabel f).parameterSlots = type.parameterSlots := by
  rw [relabel_eq, parameterSlots_mapNames]

/-! Descriptors with new names. -/

/-- Two outcomes that are values with a relation, or both failures with one. -/
inductive Mirrors {ε α β : Type} (fails : ε → ε → Prop) (related : α → β → Prop) :
    Except ε α → Except ε β → Prop where
  | ok {a : α} {b : β} : related a b → Mirrors fails related (.ok a) (.ok b)
  | error {cause other : ε} : fails cause other → Mirrors fails related (.error cause) (.error other)

/-- The same where the reasons of two failures need not go together. -/
abbrev Echoes {ε α β : Type} (related : α → β → Prop) : Except ε α → Except ε β → Prop :=
  Mirrors (fun _ _ => True) related

namespace Mirrors

variable {ε α β γ δ : Type} {fails : ε → ε → Prop} {related : α → β → Prop} {results : γ → δ → Prop}
  {first : Except ε α} {second : Except ε β}

theorem bind {next : α → Except ε γ} {others : β → Except ε δ} (h : Mirrors fails related first second)
    (each : ∀ a b, related a b → Mirrors fails results (next a) (others b)) :
    Mirrors fails results (first >>= next) (second >>= others) := by
  cases h with
  | ok both => exact each _ _ both
  | error both => exact .error both

theorem map {g : α → γ} {other : β → δ} (h : Mirrors fails related first second)
    (each : ∀ a b, related a b → results (g a) (other b)) :
    Mirrors fails results (g <$> first) (other <$> second) := by
  cases h with
  | ok both => exact .ok (each _ _ both)
  | error both => exact .error both

end Mirrors

def Relabeling.descriptor (f : Relabeling) (text : String) : String :=
  match Descriptor.fieldType text, Descriptor.methodType text with
  | .ok type, _ => (type.relabel f).render
  | .error _, .ok type => (type.relabel f).render
  | .error _, .error _ => text

theorem methodType_of_fieldType {text : String} (parsed : Descriptor.fieldType text = .ok type) :
    ∃ cause, Descriptor.methodType text = .error cause := by
  obtain ⟨c, rest, chars, opens⟩ := chars_eq_cons type
  rw [← chars_of_fieldType parsed] at chars
  unfold Descriptor.methodType
  split
  · next same =>
    rw [chars] at same
    exact absurd (by simp [(List.cons.inj same).1]) opens
  · exact ⟨_, rfl⟩

theorem fieldType_of_methodType {text : String} {type : MethodType}
    (parsed : Descriptor.methodType text = .ok type) :
    ∃ cause, Descriptor.fieldType text = .error cause := by
  cases found : Descriptor.fieldType text with
  | error cause => exact ⟨cause, rfl⟩
  | ok other =>
    obtain ⟨cause, failed⟩ := methodType_of_fieldType found
    rw [parsed] at failed
    cases failed

theorem fieldType_descriptor (f : Relabeling) (text : String) :
    Echoes (fun type other => other = type.relabel f ∧ type.Proper)
      (Descriptor.fieldType text) (Descriptor.fieldType (f.descriptor text)) := by
  unfold Relabeling.descriptor
  cases parsed : Descriptor.fieldType text with
  | ok type =>
    have proper := proper_of_fieldType parsed
    dsimp only
    rw [fieldType_render proper.relabel]
    exact .ok ⟨rfl, proper⟩
  | error cause =>
    cases other : Descriptor.methodType text with
    | ok type =>
      have proper := (proper_of_methodType other).relabel (f := f)
      obtain ⟨cause, failed⟩ := fieldType_of_methodType (methodType_render proper)
      dsimp only
      rw [failed]
      exact .error trivial
    | error _ =>
      dsimp only
      rw [parsed]
      exact .error trivial

theorem methodType_descriptor (f : Relabeling) (text : String) :
    Echoes (fun type other => other = type.relabel f ∧ type.Proper)
      (Descriptor.methodType text) (Descriptor.methodType (f.descriptor text)) := by
  unfold Relabeling.descriptor
  cases parsed : Descriptor.methodType text with
  | ok type =>
    obtain ⟨cause, failed⟩ := fieldType_of_methodType parsed
    have proper := proper_of_methodType parsed
    rw [failed]
    dsimp only
    rw [methodType_render proper.relabel]
    exact .ok ⟨rfl, proper⟩
  | error cause =>
    cases other : Descriptor.fieldType text with
    | ok type =>
      have proper := (proper_of_fieldType other).relabel (f := f)
      obtain ⟨cause, failed⟩ := methodType_of_fieldType (fieldType_render proper)
      dsimp only
      rw [failed]
      exact .error trivial
    | error _ =>
      dsimp only
      rw [parsed]
      exact .error trivial

/-! Arrays by the types of their elements. -/

section Arrays

variable {name : String}

theorem splitArray_bracket (name : String) : splitArray ("[" ++ name).toList =
    ((splitArray name.toList).1 + 1, (splitArray name.toList).2) := by
  have chars : ("[" ++ name).toList = '[' :: name.toList := by simp [String.toList_append]
  rw [chars]
  simp [splitArray]

theorem bracket_arrayName {dimensions : Nat} (nonzero : dimensions ≠ 0) (element : String) :
    "[" ++ arrayName dimensions element = arrayName (dimensions + 1) element := by
  apply String.toList_inj.1
  rw [arrayName, arrayName, if_neg nonzero, if_neg (Nat.succ_ne_zero _), List.replicate_succ]
  simp [String.toList_append]

theorem not_isPlain_bracket (name : String) : ¬ IsPlain ("[" ++ name) := by
  rw [IsPlain, splitArray_bracket]
  exact Nat.succ_ne_zero _

theorem name_bracket (array : ¬ IsPlain name) : f.name ("[" ++ name) = "[" ++ f.name name := by
  cases nameShape name with
  | plain plain => exact absurd plain array
  | array element nonzero =>
    rw [bracket_arrayName nonzero, name_array (Nat.succ_ne_zero _), name_array nonzero,
      bracket_arrayName nonzero]
  | base _ base =>
    rw [name_base array base, name_base (not_isPlain_bracket name)]
    rwa [splitArray_bracket]

theorem properCore_bracket (array : ¬ IsPlain name) (proper : ProperCore name) :
    ProperCore ("[" ++ name) := by
  cases nameShape name with
  | plain plain => exact absurd plain array
  | array element nonzero =>
    rw [bracket_arrayName nonzero, properCore_array (Nat.succ_ne_zero _)]
    rwa [properCore_array nonzero] at proper
  | base _ base =>
    apply properCore_base (not_isPlain_bracket name)
    rwa [splitArray_bracket]

theorem render_array (type : FieldType) : (FieldType.array type).render = "[" ++ type.render := by
  apply String.toList_inj.1
  simp [FieldType.render, FieldType.chars, String.toList_append]

theorem render_array_object (name : String) :
    (FieldType.array (.object name)).render = arrayName 1 name := by
  apply String.toList_inj.1
  simp [FieldType.render, FieldType.chars, arrayName, String.toList_append]

theorem not_isPlain_render (type : FieldType) : ¬ IsPlain (FieldType.array type).render := by
  rw [render_array]
  exact not_isPlain_bracket _

theorem base_render (type : BaseType) : Descriptor.internalName?
    (String.ofList (splitArray (FieldType.array (.base type)).render.toList).2) = none := by
  cases type <;> decide

theorem name_render_array (f : Relabeling) (type : FieldType) :
    f.name (FieldType.array type).render = (FieldType.array (type.relabel f)).render := by
  induction type with
  | base type => exact name_base (not_isPlain_render _) (base_render type)
  | object name =>
    rw [render_array_object, name_array Nat.one_ne_zero, FieldType.relabel, render_array_object]
  | array component ih =>
    rw [render_array, name_bracket (not_isPlain_render _), ih, ← render_array, FieldType.relabel]

theorem properCore_render_array (proper : type.Proper) : ProperCore (FieldType.array type).render := by
  induction type with
  | base type => exact properCore_base (not_isPlain_render _) (base_render type)
  | object name =>
    rw [render_array_object, properCore_array Nat.one_ne_zero]
    exact properCore_of_proper proper
  | array component ih =>
    rw [render_array]
    exact properCore_bracket (not_isPlain_render _) (ih proper)

theorem chars_arrays (type : FieldType) (dimensions : Nat) :
    (type.arrays dimensions).chars = List.replicate dimensions '[' ++ type.chars := by
  induction dimensions with
  | zero => rfl
  | succ dimensions ih =>
    rw [FieldType.arrays, FieldType.chars, ih, List.replicate_succ, List.cons_append]

theorem arrayName_succ (dimensions : Nat) (name : String) : (arrayName (dimensions + 1) name).toList =
    '[' :: ((FieldType.object name).arrays dimensions).chars := by
  rw [arrayName, if_neg (Nat.succ_ne_zero _), List.replicate_succ, chars_arrays]
  simp [String.toList_append, FieldType.chars]

theorem proper_of_chars_arrays {dimensions : Nat} (proper : type.Proper)
    (same : type.chars = ((FieldType.object name).arrays dimensions).chars) : ProperName name := by
  induction dimensions generalizing type with
  | zero =>
    cases type with
    | base type =>
      have lengths := congrArg List.length same
      simp [FieldType.arrays, FieldType.chars] at lengths
    | object other =>
      have inner := List.append_cancel_right (List.cons.inj same).2
      rwa [← String.toList_inj.1 inner]
    | array component => cases (List.cons.inj same).1
  | succ dimensions ih =>
    cases type with
    | base type => cases type <;> cases (List.cons.inj same).1
    | object other => cases (List.cons.inj same).1
    | array component =>
      have within : component.Proper := proper
      exact ih within (List.cons.inj same).2

theorem proper_arrays (proper : ProperName name) (dimensions : Nat) :
    ((FieldType.object name).arrays dimensions).Proper := by
  induction dimensions with
  | zero => exact proper
  | succ dimensions ih => exact ih

theorem fieldType_chars (proper : type.Proper) :
    Descriptor.fieldType (String.ofList type.chars) = .ok type := fieldType_render proper

theorem fieldType_arrays_error (improper : ¬ ProperName name) (dimensions : Nat) : ∃ cause,
    Descriptor.fieldType (String.ofList ((FieldType.object name).arrays dimensions).chars) =
      .error cause := by
  cases parsed : Descriptor.fieldType
      (String.ofList ((FieldType.object name).arrays dimensions).chars) with
  | error cause => exact ⟨cause, rfl⟩
  | ok type =>
    have chars := chars_of_fieldType parsed
    rw [String.toList_ofList] at chars
    exact absurd (proper_of_chars_arrays (proper_of_fieldType parsed) chars.symm) improper

theorem fieldType_name (f : Relabeling) (named : WellNamed name) {rest : List Char}
    (array : name.toList = '[' :: rest) : ∃ behind, (f.name name).toList = '[' :: behind ∧
      Echoes (fun type other => other = type.relabel f ∧ type.Proper)
        (Descriptor.fieldType (String.ofList rest)) (Descriptor.fieldType (String.ofList behind)) := by
  have notPlain : ¬ IsPlain name := not_isPlain_iff.2 ⟨rest, array⟩
  have core : ProperCore name := named.resolve_left notPlain
  cases parsed : Descriptor.fieldType (String.ofList rest) with
  | ok type =>
    have chars := chars_of_fieldType parsed
    have proper := proper_of_fieldType parsed
    rw [String.toList_ofList] at chars
    have same : name = (FieldType.array type).render := by
      rw [← String.toList_inj, array, chars, FieldType.render, String.toList_ofList, FieldType.chars]
    refine ⟨(type.relabel f).chars, ?_, ?_⟩
    · rw [same, name_render_array, FieldType.render, String.toList_ofList, FieldType.chars]
    · rw [fieldType_chars proper.relabel]
      exact .ok ⟨rfl, proper⟩
  | error cause =>
    cases nameShape name with
    | plain plain => exact absurd plain notPlain
    | base _ base =>
      rw [name_base notPlain base]
      refine ⟨rest, array, ?_⟩
      rw [parsed]
      exact .error trivial
    | @array dimensions element some =>
      obtain ⟨dimensions, rfl⟩ := Nat.exists_eq_succ_of_ne_zero some
      rw [arrayName_succ] at array
      obtain ⟨-, rfl⟩ := List.cons.inj array
      have improper : ¬ ProperName element := by
        intro proper
        rw [fieldType_chars (proper_arrays proper dimensions)] at parsed
        cases parsed
      have inner : ¬ IsPlain element := by
        intro plain
        rw [properCore_array some, properCore_plain plain] at core
        exact improper core
      obtain ⟨other, failed⟩ :=
        fieldType_arrays_error (not_proper_name (f := f) inner improper) dimensions
      refine ⟨_, by rw [name_array some, arrayName_succ], ?_⟩
      rw [failed]
      exact .error trivial

end Arrays

def VerificationType.relabel (f : Relabeling) : VerificationType → VerificationType
  | .object name => .object (f.name name)
  | other => other

structure VerificationType.Becomes (f : Relabeling) (type other : VerificationType) : Prop where
  relabeled : other = type.relabel f
  named : type.Named WellNamed

namespace VerificationType

theorem relabel_injective (f : Relabeling) : Function.Injective (VerificationType.relabel f) := by
  intro a b same
  cases a <;> cases b <;> simp_all [relabel, name_eq_iff]

theorem isWide_relabel (f : Relabeling) (type : VerificationType) :
    (type.relabel f).isWide = type.isWide := by cases type <;> rfl

theorem slots_relabel (f : Relabeling) (type : VerificationType) :
    (type.relabel f).slots = type.slots := by rw [slots, isWide_relabel, slots]

theorem Becomes.self {type : VerificationType} (plain : ∀ name, type ≠ .object name) :
    type.Becomes f type := by
  cases type with
  | object name => exact absurd rfl (plain name)
  | _ => exact ⟨rfl, trivial⟩

theorem Becomes.object {name : String} (named : WellNamed name) :
    (VerificationType.object name).Becomes f (VerificationType.object (f.name name)) :=
  ⟨rfl, named⟩

theorem Becomes.fixed {name : String} (listed : name ∈ fixedNames) :
    (VerificationType.object name).Becomes f (VerificationType.object name) := by
  have same := name_fixed (f := f) listed
  exact ⟨by rw [relabel, same], .inl (isPlain_fixed name listed)⟩

theorem Becomes.ofFieldType (proper : type.Proper) :
    (ofFieldType type).Becomes f (ofFieldType (type.relabel f)) := by
  cases type with
  | base type => cases type <;> exact ⟨rfl, trivial⟩
  | object name =>
    refine .object ?_
    by_cases plain : IsPlain name
    · exact .inl plain
    · exact .inr (properCore_of_proper proper)
  | array component =>
    have core : ProperCore (FieldType.array component).render := properCore_render_array proper
    have becomes := Becomes.object (f := f) (.inr core)
    rwa [name_render_array] at becomes

end VerificationType

end Types

end ClassRenaming
