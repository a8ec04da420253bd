import ClassRenaming.Proofs.SignatureText

/-!
The three grammars of signatures. Each accepts exactly the printed forms of the well-formed trees, and
reads such a form as the tree that it was printed from.
-/

namespace ClassRenaming

namespace MethodSignature

def thrownChars (types : List TypeSignature) : List Char :=
  types.flatMap fun type => '^' :: type.chars

theorem chars_eq (signature : MethodSignature) :
    signature.chars = TypeParameter.listChars signature.typeParameters ++
      '(' :: (signature.parameters.flatMap TypeSignature.chars ++
        ')' :: (signature.result.elim ['V'] TypeSignature.chars ++
          thrownChars signature.throws)) := by
  simp [chars, thrownChars]

end MethodSignature

namespace Signature

open MethodSignature (thrownChars)

theorem takeTypeParameters_sound {steps : Nat} {text rest : List Char}
    {parameters : List TypeParameter}
    (done : takeTypeParameters steps text = some (parameters, rest)) :
    text = TypeParameter.listChars parameters ++ rest ∧
      ∀ parameter ∈ parameters, parameter.WellFormed := by
  unfold takeTypeParameters at done
  split at done
  · cases done
  · next behind nonempty =>
    obtain ⟨rfl, all⟩ := takeTypeParameterList_sound done
    refine ⟨?_, all⟩
    cases parameters with
    | nil => exact absurd rfl (nonempty rest)
    | cons first others => simp [TypeParameter.listChars]
  · cases done
    refine ⟨rfl, ?_⟩
    intro parameter member
    cases member

theorem takeTypeParameters_chars {parameters : List TypeParameter}
    (proper : ∀ parameter ∈ parameters, parameter.WellFormed) (steps : Nat)
    (enough : 3 * (TypeParameter.listChars parameters).length ≤ steps) {c : Char} (start : c ≠ '<')
    (rest : List Char) :
    takeTypeParameters steps (TypeParameter.listChars parameters ++ c :: rest) =
      some (parameters, c :: rest) := by
  cases parameters with
  | nil =>
    change takeTypeParameters steps (c :: rest) = _
    unfold takeTypeParameters
    split
    · next same => exact absurd (List.cons.inj same).1 start
    · next same => exact absurd (List.cons.inj same).1 start
    · rfl
  | cons first others =>
    have chars : TypeParameter.listChars (first :: others) =
      '<' :: ((first :: others).flatMap TypeParameter.chars ++ ['>']) := rfl
    obtain ⟨d, tail, starts, other, -⟩ := start_of_typeParameter (proper first List.mem_cons_self)
    rw [chars, List.length_cons, List.length_append] at enough
    have found := takeTypeParameterList_chars proper steps (by omega) (c :: rest)
    rw [chars, List.cons_append, List.append_assoc]
    unfold takeTypeParameters
    split
    · next same =>
      rw [List.flatMap_cons, starts] at same
      exact absurd (List.cons.inj (List.cons.inj same).2).1 other
    · next same =>
      cases same
      exact found
    · next other => exact absurd rfl (other _)

/-! Types one after another, up to where the rule for them ends. -/

theorem takeClassType_sound {steps : Nat} {text rest : List Char} {type : ClassType}
    (done : takeClassType steps text = some (type, rest)) :
    text = type.chars ++ rest ∧ type.WellFormed := by
  unfold takeClassType at done
  split at done
  · obtain ⟨rfl, proper⟩ := (rulesSound steps).segments done
    refine ⟨?_, proper⟩
    simp [ClassType.chars, TypeSignature.chars]
  · cases done

theorem takeClassType_chars {type : ClassType} (proper : type.WellFormed) (steps : Nat)
    (enough : 3 * type.chars.length ≤ steps) (rest : List Char) :
    takeClassType steps (type.chars ++ rest) = some (type, rest) := by
  simp only [ClassType.chars, TypeSignature.chars, List.length_cons, List.length_append] at enough
  have found := takeSegments_chars type steps proper.1 proper.2 (by omega) rest
  simp only [ClassType.chars, TypeSignature.chars, List.cons_append, List.append_assoc,
    List.nil_append, takeClassType]
  exact found

theorem allClassTypes_sound {steps : Nat} {text : List Char} {types : List ClassType}
    (done : allClassTypes steps text = some types) :
    text = types.flatMap ClassType.chars ∧ ∀ type ∈ types, ClassType.WellFormed type := by
  induction steps generalizing text types with
  | zero => cases done
  | succ steps ih =>
    unfold allClassTypes at done
    split at done
    · cases done
    · cases done
      refine ⟨rfl, ?_⟩
      intro type member
      cases member
    · next text _ _ inner same _ =>
      cases same
      obtain ⟨⟨first, middle⟩, found, done⟩ := Option.bind_eq_some_iff.1 done
      obtain ⟨others, more, done⟩ := Option.bind_eq_some_iff.1 done
      cases done
      obtain ⟨rfl, proper⟩ := takeClassType_sound found
      obtain ⟨rfl, all⟩ := ih more
      exact ⟨rfl, List.forall_mem_cons.2 ⟨proper, all⟩⟩

theorem allClassTypes_chars {types : List ClassType} (proper : ∀ type ∈ types, ClassType.WellFormed type)
    (steps : Nat) (enough : 3 * (types.flatMap ClassType.chars).length < steps) :
    allClassTypes steps (types.flatMap ClassType.chars) = some types := by
  induction types generalizing steps with
  | nil =>
    obtain ⟨steps, rfl⟩ : ∃ n, steps = n + 1 := ⟨steps - 1, by omega⟩
    rfl
  | cons first others ih =>
    obtain ⟨here, all⟩ := List.forall_mem_cons.1 proper
    have chars : first.chars = 'L' :: (TypeSignature.segmentChars first ++ [';']) := rfl
    have positive : 0 < first.chars.length := by
      rw [chars]
      exact Nat.succ_pos _
    rw [List.flatMap_cons, List.length_append] at enough
    obtain ⟨steps, rfl⟩ : ∃ n, steps = n + 1 := ⟨steps - 1, by omega⟩
    have taken := takeClassType_chars here steps (by omega) (others.flatMap ClassType.chars)
    have found := ih all steps (by omega)
    rw [List.flatMap_cons]
    refine Option.bind_eq_some_iff.2 ⟨(first, _), taken, ?_⟩
    exact Option.bind_eq_some_iff.2 ⟨others, found, rfl⟩

theorem start_of_type (type : TypeSignature) :
    ∃ c tail, type.chars = c :: tail ∧ c ≠ ')' ∧ c ≠ 'V' := by
  cases type with
  | base base => exact ⟨_, _, rfl, by cases base <;> decide, by cases base <;> decide⟩
  | array component => exact ⟨_, _, rfl, by decide, by decide⟩
  | «variable» name => exact ⟨_, _, rfl, by decide, by decide⟩
  | «class» segments => exact ⟨_, _, rfl, by decide, by decide⟩

theorem takeParameters_sound {steps : Nat} {text rest : List Char} {types : List TypeSignature}
    (done : takeParameters steps text = some (types, rest)) :
    text = types.flatMap TypeSignature.chars ++ ')' :: rest ∧ ∀ type ∈ types, type.WellFormed := by
  induction steps generalizing text types with
  | zero => cases done
  | succ steps ih =>
    unfold takeParameters at done
    split at done
    · cases done
    · cases done
      refine ⟨rfl, ?_⟩
      intro type member
      cases member
    · next text _ _ inner same _ =>
      cases same
      obtain ⟨⟨first, middle⟩, found, done⟩ := Option.bind_eq_some_iff.1 done
      obtain ⟨⟨others, left⟩, more, done⟩ := Option.bind_eq_some_iff.1 done
      cases done
      obtain ⟨rfl, proper⟩ := (rulesSound steps).type found
      obtain ⟨rfl, all⟩ := ih more
      refine ⟨?_, List.forall_mem_cons.2 ⟨proper, all⟩⟩
      simp

theorem takeParameters_chars {types : List TypeSignature} (proper : ∀ type ∈ types, type.WellFormed)
    (steps : Nat) (enough : 3 * (types.flatMap TypeSignature.chars).length < steps)
    (rest : List Char) :
    takeParameters steps (types.flatMap TypeSignature.chars ++ ')' :: rest) = some (types, rest) := by
  induction types generalizing steps with
  | nil =>
    obtain ⟨steps, rfl⟩ : ∃ n, steps = n + 1 := ⟨steps - 1, by omega⟩
    rfl
  | cons first others ih =>
    obtain ⟨here, all⟩ := List.forall_mem_cons.1 proper
    obtain ⟨c, tail, chars, start, -⟩ := start_of_type first
    have positive : 0 < first.chars.length := by
      rw [chars]
      exact Nat.succ_pos _
    rw [List.flatMap_cons, List.length_append] at enough
    obtain ⟨steps, rfl⟩ : ∃ n, steps = n + 1 := ⟨steps - 1, by omega⟩
    have taken := takeType_chars first steps here (by omega)
      (others.flatMap TypeSignature.chars ++ ')' :: rest)
    have found := ih all steps (by omega)
    rw [List.flatMap_cons, List.append_assoc]
    unfold takeParameters
    split
    · contradiction
    · next _ same =>
      rw [chars] at same
      exact absurd (List.cons.inj same).1 start
    · next inner same _ =>
      cases same
      refine Option.bind_eq_some_iff.2 ⟨(first, _), taken, ?_⟩
      exact Option.bind_eq_some_iff.2 ⟨(others, rest), found, rfl⟩

theorem takeResult_sound {steps : Nat} {text rest : List Char} {result : Option TypeSignature}
    (done : takeResult steps text = some (result, rest)) :
    text = result.elim ['V'] TypeSignature.chars ++ rest ∧ ∀ type ∈ result, type.WellFormed := by
  unfold takeResult at done
  split at done
  · cases done
    exact ⟨rfl, nofun⟩
  · obtain ⟨⟨type, left⟩, found, done⟩ := Option.bind_eq_some_iff.1 done
    cases done
    obtain ⟨rfl, proper⟩ := (rulesSound steps).type found
    refine ⟨rfl, ?_⟩
    rintro other ⟨⟩
    exact proper

theorem takeResult_chars {result : Option TypeSignature} (proper : ∀ type ∈ result, type.WellFormed)
    (steps : Nat) (enough : 3 * (result.elim ['V'] TypeSignature.chars).length ≤ steps)
    (rest : List Char) :
    takeResult steps (result.elim ['V'] TypeSignature.chars ++ rest) = some (result, rest) := by
  cases result with
  | none => rfl
  | some type =>
    obtain ⟨c, tail, chars, -, start⟩ := start_of_type type
    have taken := takeType_chars type steps (proper type rfl) enough rest
    simp only [Option.elim_some]
    unfold takeResult
    split
    · next same =>
      rw [chars] at same
      exact absurd (List.cons.inj same).1 start
    · exact Option.bind_eq_some_iff.2 ⟨(type, rest), taken, rfl⟩

theorem isThrown_of_takeType {steps : Nat} {c : Char} {text rest : List Char} {type : TypeSignature}
    (start : c = 'L' ∨ c = 'T') (done : takeType steps (c :: text) = some (type, rest)) :
    type.IsThrown := by
  refine ⟨((rulesSound steps).type done).2, ?_⟩
  cases steps with
  | zero => cases done
  | succ steps =>
    rcases start with rfl | rfl
    · obtain ⟨⟨segments, left⟩, -, done⟩ := Option.bind_eq_some_iff.1 done
      cases done
      exact .inr ⟨segments, rfl⟩
    · obtain ⟨⟨name, left⟩, -, done⟩ := Option.bind_eq_some_iff.1 done
      cases done
      exact .inl ⟨name, rfl⟩

theorem start_of_thrown {type : TypeSignature} (thrown : type.IsThrown) :
    ∃ c tail, type.chars = c :: tail ∧ (c = 'L' ∨ c = 'T') := by
  rcases thrown.2 with ⟨name, rfl⟩ | ⟨segments, rfl⟩
  · exact ⟨_, _, rfl, .inr rfl⟩
  · exact ⟨_, _, rfl, .inl rfl⟩

theorem allThrown_sound {steps : Nat} {text : List Char} {types : List TypeSignature}
    (done : allThrown steps text = some types) :
    text = thrownChars types ∧ ∀ type ∈ types, type.IsThrown := by
  induction steps generalizing text types with
  | zero => cases done
  | succ steps ih =>
    unfold allThrown at done
    split at done
    · cases done
    · cases done
      refine ⟨rfl, ?_⟩
      intro type member
      cases member
    · next inner text same =>
      cases same
      split at done
      case h_3 => cases done
      all_goals
        obtain ⟨⟨first, middle⟩, found, done⟩ := Option.bind_eq_some_iff.1 done
        obtain ⟨others, more, done⟩ := Option.bind_eq_some_iff.1 done
        cases done
        have thrown := isThrown_of_takeType (by simp) found
        obtain ⟨chars, -⟩ := (rulesSound steps).type found
        obtain ⟨rfl, all⟩ := ih more
        refine ⟨?_, List.forall_mem_cons.2 ⟨thrown, all⟩⟩
        rw [chars]
        rfl
    · cases done

theorem allThrown_chars {types : List TypeSignature} (proper : ∀ type ∈ types, type.IsThrown)
    (steps : Nat) (enough : 3 * (thrownChars types).length < steps) :
    allThrown steps (thrownChars types) = some types := by
  induction types generalizing steps with
  | nil =>
    obtain ⟨steps, rfl⟩ : ∃ n, steps = n + 1 := ⟨steps - 1, by omega⟩
    rfl
  | cons first others ih =>
    obtain ⟨here, all⟩ := List.forall_mem_cons.1 proper
    have chars : thrownChars (first :: others) = '^' :: (first.chars ++ thrownChars others) := rfl
    rw [chars, List.length_cons, List.length_append] at enough
    obtain ⟨steps, rfl⟩ : ∃ n, steps = n + 1 := ⟨steps - 1, by omega⟩
    have taken := takeType_chars first steps here.1 (by omega) (thrownChars others)
    have found := ih all steps (by omega)
    rw [chars]
    obtain ⟨c, tail, starts, rfl | rfl⟩ := start_of_thrown here
    all_goals
      rw [starts] at taken ⊢
      refine Option.bind_eq_some_iff.2 ⟨(first, _), taken, ?_⟩
      exact Option.bind_eq_some_iff.2 ⟨others, found, rfl⟩

theorem class?_eq_some_iff {text : List Char} {signature : ClassSignature} :
    class? text = some signature ↔ text = signature.chars ∧ signature.WellFormed := by
  constructor
  · intro done
    obtain ⟨⟨parameters, behind⟩, first, done⟩ := Option.bind_eq_some_iff.1 done
    obtain ⟨⟨superclass, left⟩, second, done⟩ := Option.bind_eq_some_iff.1 done
    obtain ⟨interfaces, third, done⟩ := Option.bind_eq_some_iff.1 done
    cases done
    obtain ⟨chars, bounded⟩ := takeTypeParameters_sound first
    obtain ⟨rfl, proper⟩ := takeClassType_sound second
    obtain ⟨rfl, all⟩ := allClassTypes_sound third
    refine ⟨?_, bounded, proper, all⟩
    rw [chars, ClassSignature.chars, List.append_assoc]
  · rintro ⟨rfl, bounded, proper, all⟩
    have length : signature.chars.length = (TypeParameter.listChars signature.typeParameters).length +
        signature.superclass.chars.length +
          (signature.interfaces.flatMap ClassType.chars).length := by
      simp only [ClassSignature.chars, List.length_append]
    have steps : enough signature.chars = 3 * signature.chars.length + 3 := rfl
    have start : signature.superclass.chars =
      'L' :: (TypeSignature.segmentChars signature.superclass ++ [';']) := rfl
    have first := takeTypeParameters_chars bounded (enough signature.chars) (by omega) (c := 'L')
      (by decide) (TypeSignature.segmentChars signature.superclass ++ [';'] ++
        signature.interfaces.flatMap ClassType.chars)
    have second := takeClassType_chars proper (enough signature.chars) (by omega)
      (signature.interfaces.flatMap ClassType.chars)
    have third := allClassTypes_chars all (enough signature.chars) (by omega)
    rw [← List.cons_append, ← start, ← List.append_assoc] at first
    refine Option.bind_eq_some_iff.2 ⟨(signature.typeParameters, _), first, ?_⟩
    refine Option.bind_eq_some_iff.2 ⟨(signature.superclass, _), second, ?_⟩
    exact Option.bind_eq_some_iff.2 ⟨signature.interfaces, third, rfl⟩

theorem method?_eq_some_iff {text : List Char} {signature : MethodSignature} :
    method? text = some signature ↔ text = signature.chars ∧ signature.WellFormed := by
  constructor
  · intro done
    obtain ⟨⟨generics, behind⟩, first, done⟩ := Option.bind_eq_some_iff.1 done
    obtain ⟨chars, bounded⟩ := takeTypeParameters_sound first
    dsimp only at done
    split at done
    · obtain ⟨⟨parameters, left⟩, second, done⟩ := Option.bind_eq_some_iff.1 done
      obtain ⟨⟨result, last⟩, third, done⟩ := Option.bind_eq_some_iff.1 done
      obtain ⟨throws, fourth, done⟩ := Option.bind_eq_some_iff.1 done
      cases done
      obtain ⟨rfl, proper⟩ := takeParameters_sound second
      obtain ⟨rfl, returned⟩ := takeResult_sound third
      obtain ⟨rfl, thrown⟩ := allThrown_sound fourth
      refine ⟨?_, bounded, proper, returned, thrown⟩
      rw [chars, MethodSignature.chars_eq]
    · cases done
  · rintro ⟨rfl, bounded, proper, returned, thrown⟩
    have chars := MethodSignature.chars_eq signature
    have length := congrArg List.length chars
    simp only [List.length_append, List.length_cons] at length
    have steps : enough signature.chars = 3 * signature.chars.length + 3 := rfl
    have first := takeTypeParameters_chars bounded (enough signature.chars) (by omega) (c := '(')
      (by decide) (signature.parameters.flatMap TypeSignature.chars ++
        ')' :: (signature.result.elim ['V'] TypeSignature.chars ++ thrownChars signature.throws))
    have second := takeParameters_chars proper (enough signature.chars) (by omega)
      (signature.result.elim ['V'] TypeSignature.chars ++ thrownChars signature.throws)
    have third := takeResult_chars returned (enough signature.chars) (by omega)
      (thrownChars signature.throws)
    have fourth := allThrown_chars thrown (enough signature.chars) (by omega)
    rw [← chars] at first
    refine Option.bind_eq_some_iff.2 ⟨(signature.typeParameters, _), first, ?_⟩
    refine Option.bind_eq_some_iff.2 ⟨(signature.parameters, _), second, ?_⟩
    refine Option.bind_eq_some_iff.2 ⟨(signature.result, _), third, ?_⟩
    exact Option.bind_eq_some_iff.2 ⟨signature.throws, fourth, rfl⟩

theorem field?_eq_some_iff {text : List Char} {type : TypeSignature} :
    field? text = some type ↔ text = type.chars ∧ type.WellFormed := by
  constructor
  · intro done
    unfold field? at done
    split at done
    · next found =>
      cases done
      obtain ⟨chars, proper⟩ := (rulesSound _).type found
      rw [List.append_nil] at chars
      exact ⟨chars, proper⟩
    · cases done
  · rintro ⟨rfl, proper⟩
    have taken := takeType_chars type (enough type.chars) proper (by rw [enough]; omega) []
    rw [List.append_nil] at taken
    rw [field?, taken]

/-! Texts that are accepted. -/

theorem orRefuse_eq_ok {α : Type} {text : String} {found : Option α} {value : α} :
    orRefuse text found = .ok value ↔ found = some value := by
  cases found <;> simp [orRefuse]

theorem toList_eq_iff {text : String} {chars : List Char} :
    text.toList = chars ↔ String.ofList chars = text := by
  rw [← String.toList_inj, String.toList_ofList, eq_comm]

theorem ofClass_eq_ok_iff {text : String} {signature : ClassSignature} :
    ofClass text = .ok signature ↔ signature.WellFormed ∧ signature.render = text := by
  rw [ofClass, orRefuse_eq_ok, class?_eq_some_iff, toList_eq_iff, and_comm]
  rfl

theorem ofMethod_eq_ok_iff {text : String} {signature : MethodSignature} :
    ofMethod text = .ok signature ↔ signature.WellFormed ∧ signature.render = text := by
  rw [ofMethod, orRefuse_eq_ok, method?_eq_some_iff, toList_eq_iff, and_comm]
  rfl

theorem ofField_eq_ok_iff {text : String} {type : TypeSignature} :
    ofField text = .ok type ↔ type.WellFormed ∧ type.render = text := by
  rw [ofField, orRefuse_eq_ok, field?_eq_some_iff, toList_eq_iff, and_comm]
  rfl

/-- In each of the three grammars, what a text was read as is printed as this text, and a well-formed
tree is read from its printed form; trees that are not well formed are read from no text. -/
theorem reads_iff_prints :
    (∀ text signature, ofClass text = .ok signature ↔
      signature.WellFormed ∧ signature.render = text) ∧
    (∀ text signature, ofMethod text = .ok signature ↔
      signature.WellFormed ∧ signature.render = text) ∧
    ∀ text type, ofField text = .ok type ↔ type.WellFormed ∧ type.render = text := by
  refine ⟨?_, ?_, ?_⟩
  · intro text signature
    exact ofClass_eq_ok_iff
  · intro text signature
    exact ofMethod_eq_ok_iff
  · intro text type
    exact ofField_eq_ok_iff

end Signature

end ClassRenaming
