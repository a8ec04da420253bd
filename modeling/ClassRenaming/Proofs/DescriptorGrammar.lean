import ClassRenaming.Descriptor
import ClassRenaming.Proofs.Reading

/-!
Descriptors as texts. A text is read as a type just when the type is printed as this text and its class
names can stand in a descriptor. New names for the classes leave the shape of a type alone, and with
it the slots of its values.
-/

namespace ClassRenaming

/-- Whether a class of this name can stand in a descriptor, between `L` and `;`. -/
def ProperName (name : String) : Prop := name ≠ "" ∧ ';' ∉ name.toList

instance (name : String) : Decidable (ProperName name) :=
  inferInstanceAs (Decidable (_ ∧ _))

namespace FieldType

def Proper : FieldType → Prop
  | base _ => True
  | object name => ProperName name
  | array component => component.Proper

def mapNames (f : String → String) : FieldType → FieldType
  | base type => base type
  | object name => object (f name)
  | array component => array (component.mapNames f)

def shape (type : FieldType) : FieldType := type.mapNames fun _ => ""

end FieldType

namespace MethodType

structure Proper (type : MethodType) : Prop where
  parameters : ∀ parameter ∈ type.parameters, parameter.Proper
  result : ∀ result ∈ type.result, result.Proper

def mapNames (f : String → String) (type : MethodType) : MethodType :=
  ⟨type.parameters.map (FieldType.mapNames f), type.result.map (FieldType.mapNames f)⟩

def shape (type : MethodType) : MethodType := type.mapNames fun _ => ""

theorem chars_eq (type : MethodType) : type.chars =
    '(' :: (type.parameters.flatMap FieldType.chars ++
      ')' :: type.result.elim ['V'] FieldType.chars) := by
  obtain ⟨parameters, result⟩ := type
  cases result <;> rfl

end MethodType

/-! Other names in a type. -/

section Names

variable {f : String → String}

namespace FieldType

theorem mapNames_mapNames (g : String → String) (type : FieldType) :
    (type.mapNames f).mapNames g = type.mapNames (g ∘ f) := by
  induction type with
  | base type => rfl
  | object name => rfl
  | array component ih => exact congrArg array ih

theorem shape_mapNames (type : FieldType) : (type.mapNames f).shape = type.shape :=
  mapNames_mapNames _ type

theorem slots_mapNames (type : FieldType) : (type.mapNames f).slots = type.slots := by
  cases type <;> rfl

theorem Proper.mapNames (keeps : ∀ name, ProperName name → ProperName (f name)) {type : FieldType}
    (proper : type.Proper) : (type.mapNames f).Proper := by
  induction type with
  | base type => trivial
  | object name => exact keeps name proper
  | array component ih => exact ih proper

end FieldType

namespace MethodType

theorem shape_mapNames (type : MethodType) : (type.mapNames f).shape = type.shape := by
  have each := funext (FieldType.mapNames_mapNames (f := f) fun _ => "")
  simp only [shape, mapNames, List.map_map, Option.map_map]
  rw [Function.comp_def, each]
  rfl

theorem parameterSlots_mapNames (type : MethodType) :
    (type.mapNames f).parameterSlots = type.parameterSlots := by
  rw [parameterSlots, mapNames, List.foldr_map, parameterSlots]
  simp only [FieldType.slots_mapNames]

theorem Proper.mapNames (keeps : ∀ name, ProperName name → ProperName (f name)) {type : MethodType}
    (proper : type.Proper) : (type.mapNames f).Proper := by
  constructor
  case parameters =>
    intro parameter listed
    obtain ⟨old, member, rfl⟩ := List.mem_map.1 listed
    exact (proper.parameters old member).mapNames keeps
  case result =>
    intro result listed
    obtain ⟨old, member, rfl⟩ := Option.map_eq_some_iff.1 listed
    exact (proper.result old member).mapNames keeps

end MethodType

end Names

/-! What is read is printed as it was. -/

section Texts

variable {text : String} {type : FieldType}

theorem splitSemicolon_sound {text before after : List Char}
    (split : Descriptor.splitSemicolon text = some (before, after)) :
    text = before ++ ';' :: after ∧ ';' ∉ before := by
  induction text generalizing before with
  | nil => cases split
  | cons c rest ih =>
    unfold Descriptor.splitSemicolon at split
    split at split
    · cases split
    · next same =>
      cases same
      cases split
      exact ⟨rfl, List.not_mem_nil⟩
    · next other same =>
      cases same
      split at split
      · next front back found =>
        cases split
        obtain ⟨rfl, free⟩ := ih found
        refine ⟨rfl, ?_⟩
        rw [List.mem_cons, not_or]
        exact ⟨fun here => other here.symm, free⟩
      · cases split

theorem splitSemicolon_append {name : List Char} (free : ';' ∉ name) (rest : List Char) :
    Descriptor.splitSemicolon (name ++ ';' :: rest) = some (name, rest) := by
  induction name with
  | nil => rfl
  | cons c name ih =>
    rw [List.mem_cons, not_or] at free
    rw [List.cons_append]
    unfold Descriptor.splitSemicolon
    split
    · next same => cases same
    · next same => exact absurd (List.cons.inj same).1.symm free.1
    · next c' rest' _ same =>
      obtain ⟨rfl, rfl⟩ := List.cons.inj same
      rw [ih free.2]

theorem takeFieldType_sound {text rest : List Char}
    (taken : Descriptor.takeFieldType text = .ok (type, rest)) :
    text = type.chars ++ rest ∧ type.Proper := by
  induction text generalizing type rest with
  | nil => cases taken
  | cons c text ih =>
    unfold Descriptor.takeFieldType at taken
    split at taken
    · cases taken
    · next same =>
      cases same
      split at taken
      · next component after inner =>
        cases taken
        obtain ⟨rfl, proper⟩ := ih inner
        exact ⟨rfl, proper⟩
      · cases taken
    · next same =>
      cases same
      split at taken
      · next first name after split =>
        cases taken
        obtain ⟨rfl, free⟩ := splitSemicolon_sound split
        refine ⟨by simp [FieldType.chars], ?_, ?_⟩
        · intro empty
          rw [← String.toList_eq_nil_iff, String.toList_ofList] at empty
          cases empty
        · rwa [String.toList_ofList]
      · cases taken
    · next same =>
      cases same
      split at taken
      · next base found =>
        cases taken
        refine ⟨?_, trivial⟩
        rw [FieldType.chars, BaseType.letter_of_ofLetter? found]
        rfl
      · cases taken

theorem takeFieldType_chars (proper : type.Proper) (rest : List Char) :
    Descriptor.takeFieldType (type.chars ++ rest) = .ok (type, rest) := by
  induction type with
  | base type => cases type <;> rfl
  | object name =>
    obtain ⟨nonempty, free⟩ := proper
    cases chars : name.toList with
    | nil => exact absurd (String.toList_eq_nil_iff.1 chars) nonempty
    | cons c others =>
      have split := splitSemicolon_append free rest
      rw [chars] at split
      rw [FieldType.chars, chars, List.cons_append, List.cons_append, List.append_assoc,
        List.singleton_append, Descriptor.takeFieldType, split]
      dsimp only
      rw [← chars, String.ofList_toList]
  | array component ih =>
    rw [FieldType.chars, List.cons_append, Descriptor.takeFieldType, ih proper]

theorem fieldType_render (proper : type.Proper) : Descriptor.fieldType type.render = .ok type := by
  have taken := takeFieldType_chars proper []
  rw [List.append_nil] at taken
  rw [Descriptor.fieldType, FieldType.render, String.toList_ofList, taken]

theorem fieldType_sound (parsed : Descriptor.fieldType text = .ok type) :
    text.toList = type.chars ∧ type.Proper := by
  unfold Descriptor.fieldType at parsed
  split at parsed
  · next taken =>
    cases parsed
    obtain ⟨chars, proper⟩ := takeFieldType_sound taken
    rw [List.append_nil] at chars
    exact ⟨chars, proper⟩
  · cases parsed
  · cases parsed

theorem fieldType_eq_ok_iff :
    Descriptor.fieldType text = .ok type ↔ type.Proper ∧ type.render = text := by
  constructor
  · intro parsed
    obtain ⟨chars, proper⟩ := fieldType_sound parsed
    refine ⟨proper, ?_⟩
    rw [FieldType.render, ← chars, String.ofList_toList]
  · rintro ⟨proper, rfl⟩
    exact fieldType_render proper

theorem chars_of_fieldType (parsed : Descriptor.fieldType text = .ok type) :
    text.toList = type.chars := (fieldType_sound parsed).1

theorem proper_of_fieldType (parsed : Descriptor.fieldType text = .ok type) : type.Proper :=
  (fieldType_sound parsed).2

theorem chars_eq_cons (type : FieldType) : ∃ c rest, type.chars = c :: rest ∧ c ∉ [')', '(', 'V'] := by
  cases type with
  | base type => cases type <;> exact ⟨_, _, rfl, by decide⟩
  | object name => exact ⟨_, _, rfl, by decide⟩
  | array component => exact ⟨_, _, rfl, by decide⟩

theorem takeParameters_cons {steps : Nat} {c : Char} (opens : c ≠ ')') (rest : List Char) :
    Descriptor.takeParameters text (steps + 1) (c :: rest) = (do
      let (first, rest) ← Descriptor.takeFieldType (c :: rest)
      let (others, rest) ← Descriptor.takeParameters text steps rest
      return (first :: others, rest)) := by
  rw [Descriptor.takeParameters]
  · rintro other same
    exact opens (List.cons.inj same).1
  · nofun

theorem takeParameters_chars {types : List FieldType} (proper : ∀ type ∈ types, type.Proper)
    {steps : Nat} (enough : types.length ≤ steps) (rest : List Char) :
    Descriptor.takeParameters text steps (types.flatMap FieldType.chars ++ ')' :: rest) =
      .ok (types, rest) := by
  induction types generalizing steps with
  | nil => cases steps <;> rfl
  | cons type types ih =>
    rw [List.forall_mem_cons] at proper
    obtain ⟨steps, rfl⟩ := Nat.exists_eq_succ_of_ne_zero (Nat.ne_zero_of_lt enough)
    have taken := takeFieldType_chars proper.1 (types.flatMap FieldType.chars ++ ')' :: rest)
    have others := ih proper.2 (Nat.le_of_succ_le_succ enough)
    obtain ⟨c, tail, chars, opens⟩ := chars_eq_cons type
    have inside : c ≠ ')' := fun same => opens (by simp [same])
    rw [chars, List.cons_append] at taken
    rw [List.flatMap_cons, List.append_assoc, chars, List.cons_append, takeParameters_cons inside,
      taken]
    simp only [bind, Except.bind, others, pure, Except.pure]

theorem takeParameters_sound {steps : Nat} {chars rest : List Char} {types : List FieldType}
    (taken : Descriptor.takeParameters text steps chars = .ok (types, rest)) :
    chars = types.flatMap FieldType.chars ++ ')' :: rest ∧ ∀ type ∈ types, type.Proper := by
  induction steps generalizing chars types with
  | zero =>
    unfold Descriptor.takeParameters at taken
    split at taken
    · cases taken
      exact ⟨rfl, List.forall_mem_nil _⟩
    · cases taken
    · cases taken
    · contradiction
  | succ steps ih =>
    unfold Descriptor.takeParameters at taken
    split at taken
    · cases taken
      exact ⟨rfl, List.forall_mem_nil _⟩
    · cases taken
    · cases taken
    · next same _ _ =>
      cases same
      obtain ⟨⟨first, after⟩, here, taken⟩ := Except.bind_eq_ok.1 taken
      obtain ⟨⟨others, last⟩, there, taken⟩ := Except.bind_eq_ok.1 taken
      cases taken
      obtain ⟨rfl, proper⟩ := takeFieldType_sound here
      obtain ⟨rfl, all⟩ := ih there
      refine ⟨?_, List.forall_mem_cons.2 ⟨proper, all⟩⟩
      rw [List.flatMap_cons, List.append_assoc]

theorem length_le_flatMap_chars (types : List FieldType) :
    types.length ≤ (types.flatMap FieldType.chars).length := by
  induction types with
  | nil => exact Nat.le_refl _
  | cons type types ih =>
    obtain ⟨c, rest, chars, -⟩ := chars_eq_cons type
    rw [List.flatMap_cons, chars, List.length_append, List.length_cons, List.length_cons]
    omega

theorem takeResult_chars {result : Option FieldType} (proper : ∀ type ∈ result, type.Proper) :
    Descriptor.takeResult (result.elim ['V'] FieldType.chars) = .ok (result, []) := by
  cases result with
  | none => rfl
  | some type =>
    have taken := takeFieldType_chars (proper type rfl) []
    obtain ⟨c, rest, chars, opens⟩ := chars_eq_cons type
    have returns : c ≠ 'V' := fun same => opens (by simp [same])
    rw [List.append_nil, chars] at taken
    rw [Option.elim_some, chars, Descriptor.takeResult, taken]
    · rfl
    · rintro other same
      exact returns (List.cons.inj same).1

theorem takeResult_sound {text rest : List Char} {result : Option FieldType}
    (taken : Descriptor.takeResult text = .ok (result, rest)) :
    text = result.elim ['V'] FieldType.chars ++ rest ∧ ∀ type ∈ result, type.Proper := by
  unfold Descriptor.takeResult at taken
  split at taken
  · cases taken
    exact ⟨rfl, nofun⟩
  · obtain ⟨⟨type, remaining⟩, found, taken⟩ := Except.bind_eq_ok.1 taken
    cases taken
    obtain ⟨rfl, proper⟩ := takeFieldType_sound found
    refine ⟨rfl, ?_⟩
    rintro _ ⟨⟩
    exact proper

theorem methodType_render {type : MethodType} (proper : type.Proper) :
    Descriptor.methodType type.render = .ok type := by
  have opens : type.render.toList = _ := String.toList_ofList.trans type.chars_eq
  have enough : type.parameters.length ≤ (type.parameters.flatMap FieldType.chars ++
      ')' :: type.result.elim ['V'] FieldType.chars).length := by
    rw [List.length_append]
    exact Nat.le_trans (length_le_flatMap_chars type.parameters) (Nat.le_add_right _ _)
  unfold Descriptor.methodType
  split
  · next rest same =>
    obtain ⟨-, rfl⟩ := List.cons.inj (same.symm.trans opens)
    rw [takeParameters_chars proper.parameters enough]
    simp only [bind, Except.bind, takeResult_chars proper.result]
    rfl
  · next other => exact absurd opens (other _)

theorem methodType_sound {type : MethodType} (parsed : Descriptor.methodType text = .ok type) :
    text.toList = type.chars ∧ type.Proper := by
  unfold Descriptor.methodType at parsed
  split at parsed
  · next opens =>
    obtain ⟨⟨parameters, after⟩, here, parsed⟩ := Except.bind_eq_ok.1 parsed
    obtain ⟨⟨result, last⟩, there, parsed⟩ := Except.bind_eq_ok.1 parsed
    dsimp only at parsed
    split at parsed
    · next ends =>
      cases parsed
      obtain ⟨rfl, all⟩ := takeParameters_sound here
      obtain ⟨rfl, returned⟩ := takeResult_sound there
      rw [List.isEmpty_iff.1 ends, List.append_nil] at opens
      exact ⟨opens.trans (MethodType.chars_eq ⟨parameters, result⟩).symm, all, returned⟩
    · cases parsed
  · cases parsed

theorem methodType_eq_ok_iff {type : MethodType} :
    Descriptor.methodType text = .ok type ↔ type.Proper ∧ type.render = text := by
  constructor
  · intro parsed
    obtain ⟨chars, proper⟩ := methodType_sound parsed
    refine ⟨proper, ?_⟩
    rw [MethodType.render, ← chars, String.ofList_toList]
  · rintro ⟨proper, rfl⟩
    exact methodType_render proper

theorem proper_of_methodType {type : MethodType} (parsed : Descriptor.methodType text = .ok type) :
    type.Proper := (methodType_sound parsed).2

end Texts

end ClassRenaming
