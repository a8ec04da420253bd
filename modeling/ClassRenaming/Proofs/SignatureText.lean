import ClassRenaming.Signature.Grammar
import Mathlib.Data.List.TakeWhile

/-!
Signatures as texts. A rule of the grammar takes the printed form of what it returns off the front of
the text, and takes it off any text that starts with it: reading and printing are inverse on the
trees that have a text of their own, in the steps that the length of the text allows.
-/

namespace ClassRenaming

/-- A name that ends where a character stops it, and is not empty. -/
structure IsIdentifier (stop : Char → Bool) (name : String) : Prop where
  nonempty : name ≠ ""
  free : ∀ c ∈ name.toList, stop c = false

def endsSegment (c : Char) : Bool := c == '<' || c == '.' || c == ';'

def TypeSignature.IsReference : TypeSignature → Prop
  | .base _ => False
  | _ => True

mutual

def TypeSignature.WellFormed : TypeSignature → Prop
  | .base _ => True
  | .array component => component.WellFormed
  | .variable name => IsIdentifier (· == ';') name
  | .class segments => segments ≠ [] ∧ TypeSignature.AllSegmentsWellFormed segments

def TypeSignature.AllSegmentsWellFormed : List (Segment TypeSignature) → Prop
  | [] => True
  | ⟨name, arguments⟩ :: rest =>
    IsIdentifier endsSegment name ∧ TypeSignature.AllArgumentsWellFormed arguments ∧
      TypeSignature.AllSegmentsWellFormed rest

def TypeSignature.AllArgumentsWellFormed : List (TypeArgument TypeSignature) → Prop
  | [] => True
  | first :: rest =>
    TypeSignature.ArgumentWellFormed first ∧ TypeSignature.AllArgumentsWellFormed rest

def TypeSignature.ArgumentWellFormed : TypeArgument TypeSignature → Prop
  | .any => True
  | .exact bound | .extends bound | .super bound => bound.IsReference ∧ bound.WellFormed

end

def ClassType.WellFormed (type : ClassType) : Prop := (TypeSignature.class type).WellFormed

def TypeSignature.IsBound (bound : TypeSignature) : Prop := bound.IsReference ∧ bound.WellFormed

structure TypeParameter.WellFormed (parameter : TypeParameter) : Prop where
  name : IsIdentifier (· == ':') parameter.name
  start : parameter.name.toList.head? ≠ some '>'
  classBound : ∀ bound ∈ parameter.classBound, bound.IsBound
  interfaceBounds : ∀ bound ∈ parameter.interfaceBounds, bound.IsBound
  bounded : parameter.classBound = none → parameter.interfaceBounds ≠ []

structure ClassSignature.WellFormed (signature : ClassSignature) : Prop where
  typeParameters : ∀ parameter ∈ signature.typeParameters, parameter.WellFormed
  superclass : signature.superclass.WellFormed
  interfaces : ∀ type ∈ signature.interfaces, ClassType.WellFormed type

def TypeSignature.IsThrown (type : TypeSignature) : Prop :=
  type.WellFormed ∧ ((∃ name, type = .variable name) ∨ ∃ segments, type = .class segments)

structure MethodSignature.WellFormed (signature : MethodSignature) : Prop where
  typeParameters : ∀ parameter ∈ signature.typeParameters, parameter.WellFormed
  parameters : ∀ type ∈ signature.parameters, type.WellFormed
  result : ∀ type ∈ signature.result, type.WellFormed
  throws : ∀ type ∈ signature.throws, type.IsThrown

namespace TypeParameter

def boundChars (bounds : List TypeSignature) : List Char :=
  bounds.flatMap fun bound => ':' :: bound.chars

theorem chars_eq (parameter : TypeParameter) :
    parameter.chars = parameter.name.toList ++
      ':' :: (parameter.classBound.elim [] TypeSignature.chars ++
        boundChars parameter.interfaceBounds) := by
  simp [chars, boundChars]

end TypeParameter

namespace Signature

open TypeParameter (boundChars)

/-! Every rule gives back what it took. -/

theorem takeIdentifier_sound {stop : Char → Bool} {text rest : List Char} {name : String}
    (done : takeIdentifier stop text = some (name, rest)) :
    text = name.toList ++ rest ∧ IsIdentifier stop name ∧ ∃ c tail, rest = c :: tail ∧ stop c := by
  unfold takeIdentifier at done
  split at done
  · cases done
  · cases done
  · next some_ more =>
    cases done
    refine ⟨?_, ⟨?_, ?_⟩, ?_⟩
    · rw [String.toList_ofList, List.takeWhile_append_dropWhile]
    · intro empty
      exact some_ (String.ofList_eq_empty_iff.1 empty)
    · intro c member
      rw [String.toList_ofList] at member
      simpa using List.mem_takeWhile_imp member
    · cases left : text.dropWhile (!stop ·) with
      | nil => exact absurd left more
      | cons c tail =>
        have stops := List.head?_dropWhile_not (!stop ·) text
        rw [left] at stops
        exact ⟨c, tail, rfl, by simpa using stops⟩

structure RulesSound (steps : Nat) : Prop where
  type : ∀ {text rest type}, takeType steps text = some (type, rest) →
    text = type.chars ++ rest ∧ type.WellFormed
  segments : ∀ {text rest segments}, takeSegments steps text = some (segments, rest) →
    text = TypeSignature.segmentChars segments ++ ';' :: rest ∧
      segments ≠ [] ∧ TypeSignature.AllSegmentsWellFormed segments
  arguments : ∀ {text rest arguments}, takeArguments steps text = some (arguments, rest) →
    text = TypeSignature.bracketed arguments ++ rest ∧
      TypeSignature.AllArgumentsWellFormed arguments
  argumentList : ∀ {text rest arguments}, takeArgumentList steps text = some (arguments, rest) →
    text = TypeSignature.argumentsChars arguments ++ '>' :: rest ∧
      TypeSignature.AllArgumentsWellFormed arguments
  reference : ∀ {text rest type}, takeReference steps text = some (type, rest) →
    text = type.chars ++ rest ∧ type.IsBound

theorem bracketed_eq {arguments : List (TypeArgument TypeSignature)} (nonempty : arguments ≠ []) :
    TypeSignature.bracketed arguments = '<' :: TypeSignature.argumentsChars arguments ++ ['>'] := by
  cases arguments with
  | nil => exact absurd rfl nonempty
  | cons first rest => rfl

theorem segmentChars_cons (name : String) (arguments : List (TypeArgument TypeSignature))
    {rest : List (Segment TypeSignature)} (nonempty : rest ≠ []) :
    TypeSignature.segmentChars (⟨name, arguments⟩ :: rest) =
      name.toList ++ TypeSignature.bracketed arguments ++
        '.' :: TypeSignature.segmentChars rest := by
  cases rest with
  | nil => exact absurd rfl nonempty
  | cons first others => rfl

theorem isReference_of_takeType {steps : Nat} {c : Char} {text rest : List Char}
    {type : TypeSignature} (start : c = 'L' ∨ c = 'T' ∨ c = '[')
    (done : takeType steps (c :: text) = some (type, rest)) : type.IsReference := by
  cases steps with
  | zero => cases done
  | succ steps =>
    rcases start with rfl | rfl | rfl
    all_goals
      obtain ⟨⟨found, left⟩, -, done⟩ := Option.bind_eq_some_iff.1 done
      cases done
      trivial

/-! One step more, for each of the rules. -/

namespace RulesSound

variable {steps : Nat} {text rest : List Char}

theorem takeType (sound : RulesSound steps) {type : TypeSignature}
    (done : takeType (steps + 1) text = some (type, rest)) :
    text = type.chars ++ rest ∧ type.WellFormed := by
  unfold Signature.takeType at done
  split at done
  · cases done
  · cases done
  · next inner behind same =>
    cases same
    obtain ⟨⟨component, left⟩, found, done⟩ := Option.bind_eq_some_iff.1 done
    cases done
    obtain ⟨rfl, proper⟩ := sound.type found
    exact ⟨rfl, proper⟩
  · obtain ⟨⟨name, left⟩, found, done⟩ := Option.bind_eq_some_iff.1 done
    cases done
    obtain ⟨rfl, proper, c, tail, rfl, stops⟩ := takeIdentifier_sound found
    obtain rfl : c = ';' := by simpa using stops
    refine ⟨?_, proper⟩
    simp [TypeSignature.chars]
  · next inner behind same =>
    cases same
    obtain ⟨⟨segments, left⟩, found, done⟩ := Option.bind_eq_some_iff.1 done
    cases done
    obtain ⟨rfl, nonempty, proper⟩ := sound.segments found
    refine ⟨?_, nonempty, proper⟩
    simp [TypeSignature.chars]
  · obtain ⟨base, found, done⟩ := Option.map_eq_some_iff.1 done
    cases done
    refine ⟨?_, trivial⟩
    rw [TypeSignature.chars, BaseType.letter_of_ofLetter? found]
    rfl

theorem takeSegments (sound : RulesSound steps) {segments : List (Segment TypeSignature)}
    (taken : takeSegments (steps + 1) text = some (segments, rest)) :
    text = TypeSignature.segmentChars segments ++ ';' :: rest ∧
      segments ≠ [] ∧ TypeSignature.AllSegmentsWellFormed segments := by
  obtain ⟨⟨name, behind⟩, found, follow⟩ := Option.bind_eq_some_iff.1 taken
  obtain ⟨⟨arguments, left⟩, listed, done⟩ := Option.bind_eq_some_iff.1 follow
  clear taken follow
  obtain ⟨rfl, identifier, -⟩ := takeIdentifier_sound found
  obtain ⟨rfl, proper⟩ := sound.arguments listed
  dsimp only at done
  split at done
  · obtain ⟨⟨others, last⟩, more, done⟩ := Option.bind_eq_some_iff.1 done
    cases done
    obtain ⟨rfl, nonempty, all⟩ := sound.segments more
    refine ⟨?_, List.cons_ne_nil _ _, identifier, proper, all⟩
    rw [segmentChars_cons name arguments nonempty]
    simp
  · cases done
    refine ⟨?_, List.cons_ne_nil _ _, identifier, proper, trivial⟩
    simp [TypeSignature.segmentChars]
  · cases done

theorem takeArguments (sound : RulesSound steps) {arguments : List (TypeArgument TypeSignature)}
    (done : takeArguments (steps + 1) text = some (arguments, rest)) :
    text = TypeSignature.bracketed arguments ++ rest ∧
      TypeSignature.AllArgumentsWellFormed arguments := by
  unfold Signature.takeArguments at done
  split at done
  · cases done
  · cases done
  · cases done
  · next inner behind nonempty same =>
    cases same
    obtain ⟨rfl, proper⟩ := sound.argumentList done
    have nonempty : arguments ≠ [] := by
      rintro rfl
      exact nonempty rest rfl
    refine ⟨?_, proper⟩
    rw [bracketed_eq nonempty]
    simp
  · cases done
    exact ⟨rfl, trivial⟩

theorem takeArgumentList (sound : RulesSound steps)
    {arguments : List (TypeArgument TypeSignature)}
    (done : takeArgumentList (steps + 1) text = some (arguments, rest)) :
    text = TypeSignature.argumentsChars arguments ++ '>' :: rest ∧
      TypeSignature.AllArgumentsWellFormed arguments := by
  unfold Signature.takeArgumentList at done
  split at done
  · cases done
  · cases done
    exact ⟨rfl, trivial⟩
  · next inner behind same =>
    cases same
    obtain ⟨⟨others, left⟩, more, done⟩ := Option.bind_eq_some_iff.1 done
    cases done
    obtain ⟨rfl, all⟩ := sound.argumentList more
    exact ⟨rfl, trivial, all⟩
  case' h_4 same => cases same
  case' h_5 same => cases same
  case' h_6 same _ _ _ _ => cases same
  all_goals
    obtain ⟨⟨bound, middle⟩, found, done⟩ := Option.bind_eq_some_iff.1 done
    obtain ⟨⟨others, left⟩, more, done⟩ := Option.bind_eq_some_iff.1 done
    cases done
    obtain ⟨rfl, proper⟩ := sound.reference found
    obtain ⟨rfl, all⟩ := sound.argumentList more
    refine ⟨?_, proper, all⟩
    simp [TypeSignature.argumentsChars, TypeSignature.argumentChars]

theorem takeReference (sound : RulesSound steps) {type : TypeSignature}
    (done : takeReference (steps + 1) text = some (type, rest)) :
    text = type.chars ++ rest ∧ type.IsBound := by
  unfold Signature.takeReference at done
  split at done
  · exact ⟨(sound.type done).1, isReference_of_takeType (.inl rfl) done, (sound.type done).2⟩
  · exact ⟨(sound.type done).1, isReference_of_takeType (.inr (.inl rfl)) done, (sound.type done).2⟩
  · exact ⟨(sound.type done).1, isReference_of_takeType (.inr (.inr rfl)) done, (sound.type done).2⟩
  · cases done

end RulesSound

theorem rulesSound (steps : Nat) : RulesSound steps := by
  induction steps with
  | zero =>
    constructor
    all_goals
      intro text rest value done
      cases done
  | succ steps ih =>
    exact ⟨ih.takeType, ih.takeSegments, ih.takeArguments, ih.takeArgumentList, ih.takeReference⟩

/-! Every rule takes what was printed. -/

theorem takeIdentifier_append {stop : Char → Bool} {name : String} (identifier : IsIdentifier stop name)
    {c : Char} (stops : stop c = true) (rest : List Char) :
    takeIdentifier stop (name.toList ++ c :: rest) = some (name, c :: rest) := by
  have free : ∀ d ∈ name.toList, (!stop d) = true := by
    intro d member
    rw [identifier.free d member]
    rfl
  have taken : (name.toList ++ c :: rest).takeWhile (!stop ·) = name.toList := by
    rw [List.takeWhile_append_of_pos free, List.takeWhile_cons_of_neg (by simp [stops]),
      List.append_nil]
  have left : (name.toList ++ c :: rest).dropWhile (!stop ·) = c :: rest := by
    rw [List.dropWhile_append_of_pos free, List.dropWhile_cons_of_neg (by simp [stops])]
  unfold takeIdentifier
  rw [taken, left]
  split
  case h_1 empty => exact absurd (String.toList_eq_nil_iff.1 empty) identifier.nonempty
  case h_2 more _ => cases more
  case h_3 => rw [String.ofList_toList]

theorem chars_of_isReference {type : TypeSignature} (reference : type.IsReference) :
    ∃ c tail, type.chars = c :: tail ∧ (c = 'L' ∨ c = 'T' ∨ c = '[') := by
  cases type with
  | base type => exact reference.elim
  | array component => exact ⟨_, _, rfl, .inr (.inr rfl)⟩
  | «variable» name => exact ⟨_, _, rfl, .inr (.inl rfl)⟩
  | «class» segments => exact ⟨_, _, rfl, .inl rfl⟩

theorem takeReference_eq {type : TypeSignature} (reference : type.IsReference) (steps : Nat)
    (rest : List Char) :
    takeReference (steps + 1) (type.chars ++ rest) = takeType steps (type.chars ++ rest) := by
  obtain ⟨c, tail, chars, rfl | rfl | rfl⟩ := chars_of_isReference reference
  all_goals
    rw [chars]
    rfl

theorem takeArgumentList_exact {type : TypeSignature} (reference : type.IsReference) (steps : Nat)
    (rest : List Char) : takeArgumentList (steps + 1) (type.chars ++ rest) = do
      let (bound, rest) ← takeReference steps (type.chars ++ rest)
      let (others, rest) ← takeArgumentList steps rest
      return (.exact bound :: others, rest) := by
  obtain ⟨c, tail, chars, rfl | rfl | rfl⟩ := chars_of_isReference reference
  all_goals
    rw [chars]
    rfl

theorem takeArguments_bracketed {arguments : List (TypeArgument TypeSignature)}
    (nonempty : arguments ≠ []) (proper : TypeSignature.AllArgumentsWellFormed arguments)
    (steps : Nat) (rest : List Char) :
    takeArguments (steps + 1) ('<' :: TypeSignature.argumentsChars arguments ++ rest) =
      takeArgumentList steps (TypeSignature.argumentsChars arguments ++ rest) := by
  cases arguments with
  | nil => exact absurd rfl nonempty
  | cons first others =>
    cases first with
    | exact bound =>
      obtain ⟨c, tail, chars, rfl | rfl | rfl⟩ := chars_of_isReference proper.1.1
      all_goals
        rw [TypeSignature.argumentsChars, TypeSignature.argumentChars, chars]
        rfl
    | _ => rfl

theorem start_bracketed (arguments : List (TypeArgument TypeSignature)) {c : Char}
    (closes : c = '.' ∨ c = ';') (rest : List Char) :
    ∃ d tail, TypeSignature.bracketed arguments ++ c :: rest = d :: tail ∧ endsSegment d = true := by
  cases arguments with
  | nil =>
    refine ⟨c, rest, rfl, ?_⟩
    rcases closes with rfl | rfl <;> rfl
  | cons first others => exact ⟨_, _, rfl, rfl⟩

theorem takeType_base (base : BaseType) (steps : Nat) (rest : List Char) :
    takeType (steps + 1) (base.letter :: rest) = some (.base base, rest) := by
  cases base <;> rfl

mutual

theorem takeType_chars (type : TypeSignature) (steps : Nat) (proper : type.WellFormed)
    (enough : 3 * type.chars.length ≤ steps) (rest : List Char) :
    takeType steps (type.chars ++ rest) = some (type, rest) := by
  obtain ⟨steps, rfl⟩ : ∃ n, steps = n + 1 := by
    cases type <;> exact ⟨steps - 1, by simp [TypeSignature.chars] at enough; omega⟩
  cases type with
  | base base => exact takeType_base base steps rest
  | array component =>
    rw [TypeSignature.chars, List.length_cons] at enough
    have found := takeType_chars component steps proper (by omega) rest
    rw [TypeSignature.chars, List.cons_append, takeType, found]
    rfl
  | «variable» name =>
    have found := takeIdentifier_append proper (c := ';') rfl rest
    simp only [TypeSignature.chars, List.cons_append, List.append_assoc, List.nil_append, takeType,
      found]
    rfl
  | «class» segments =>
    simp only [TypeSignature.chars, List.length_cons, List.length_append] at enough
    have found := takeSegments_chars segments steps proper.1 proper.2 (by omega) rest
    simp only [TypeSignature.chars, List.cons_append, List.append_assoc, List.nil_append, takeType,
      found]
    rfl

theorem takeSegments_chars (segments : List (Segment TypeSignature)) (steps : Nat)
    (nonempty : segments ≠ []) (proper : TypeSignature.AllSegmentsWellFormed segments)
    (enough : 3 * (TypeSignature.segmentChars segments).length + 2 ≤ steps) (rest : List Char) :
    takeSegments steps (TypeSignature.segmentChars segments ++ ';' :: rest) =
      some (segments, rest) := by
  obtain ⟨steps, rfl⟩ : ∃ n, steps = n + 1 := ⟨steps - 1, by omega⟩
  cases segments with
  | nil => exact absurd rfl nonempty
  | cons segment others =>
    obtain ⟨name, arguments⟩ := segment
    obtain ⟨identifier, all, more⟩ := proper
    have positive : 0 < name.toList.length :=
      List.length_pos_iff.2 fun empty => identifier.nonempty (String.toList_eq_nil_iff.1 empty)
    cases others with
    | nil =>
      rw [TypeSignature.segmentChars, List.length_append] at enough
      obtain ⟨d, tail, starts, ends⟩ := start_bracketed arguments (.inr rfl) rest
      have named := takeIdentifier_append identifier ends tail
      have listed := takeArguments_chars arguments steps all (by omega) (.inr rfl) rest
      rw [← starts] at named
      rw [TypeSignature.segmentChars, List.append_assoc]
      exact Option.bind_eq_some_iff.2 ⟨(name, _), named,
        Option.bind_eq_some_iff.2 ⟨(arguments, ';' :: rest), listed, rfl⟩⟩
    | cons second others =>
      have more_ : second :: others ≠ [] := List.cons_ne_nil _ _
      rw [segmentChars_cons name arguments more_] at enough ⊢
      simp only [List.length_append, List.length_cons] at enough
      have found := takeSegments_chars (second :: others) steps more_ more (by omega) rest
      obtain ⟨d, tail, starts, ends⟩ := start_bracketed arguments (.inl rfl)
        (TypeSignature.segmentChars (second :: others) ++ ';' :: rest)
      have named := takeIdentifier_append identifier ends tail
      have listed := takeArguments_chars arguments steps all (by omega) (.inl rfl)
        (TypeSignature.segmentChars (second :: others) ++ ';' :: rest)
      rw [← starts] at named
      rw [List.append_assoc, List.append_assoc, List.cons_append]
      refine Option.bind_eq_some_iff.2 ⟨(name, _), named, ?_⟩
      refine Option.bind_eq_some_iff.2 ⟨(arguments, '.' :: _), listed, ?_⟩
      exact Option.bind_eq_some_iff.2 ⟨(second :: others, rest), found, rfl⟩

theorem takeArguments_chars (arguments : List (TypeArgument TypeSignature)) (steps : Nat)
    (proper : TypeSignature.AllArgumentsWellFormed arguments)
    (enough : 3 * (TypeSignature.bracketed arguments).length + 1 ≤ steps) {c : Char}
    (closes : c = '.' ∨ c = ';') (rest : List Char) :
    takeArguments steps (TypeSignature.bracketed arguments ++ c :: rest) =
      some (arguments, c :: rest) := by
  obtain ⟨steps, rfl⟩ : ∃ n, steps = n + 1 := ⟨steps - 1, by omega⟩
  cases arguments with
  | nil => rcases closes with rfl | rfl <;> rfl
  | cons first others =>
    have nonempty : first :: others ≠ [] := List.cons_ne_nil _ _
    rw [bracketed_eq nonempty] at enough ⊢
    simp only [List.length_append, List.length_cons] at enough
    rw [List.append_assoc, takeArguments_bracketed nonempty proper]
    exact takeArgumentList_chars (first :: others) steps proper (by omega) (c :: rest)

theorem takeArgumentList_chars (arguments : List (TypeArgument TypeSignature)) (steps : Nat)
    (proper : TypeSignature.AllArgumentsWellFormed arguments)
    (enough : 3 * (TypeSignature.argumentsChars arguments).length + 2 ≤ steps) (rest : List Char) :
    takeArgumentList steps (TypeSignature.argumentsChars arguments ++ '>' :: rest) =
      some (arguments, rest) := by
  obtain ⟨steps, rfl⟩ : ∃ n, steps = n + 1 := ⟨steps - 1, by omega⟩
  cases arguments with
  | nil => rfl
  | cons first others =>
    rw [TypeSignature.argumentsChars] at enough ⊢
    rw [List.length_append] at enough
    obtain ⟨here, there⟩ := proper
    rw [List.append_assoc]
    cases first with
    | any =>
      rw [TypeSignature.argumentChars, List.length_singleton] at enough
      have found := takeArgumentList_chars others steps there (by omega) rest
      exact Option.bind_eq_some_iff.2 ⟨(others, rest), found, rfl⟩
    | exact bound =>
      rw [TypeSignature.argumentChars] at enough ⊢
      obtain ⟨c, tail, chars, -⟩ := chars_of_isReference here.1
      have positive : 0 < bound.chars.length := by
        rw [chars]
        exact Nat.succ_pos _
      obtain ⟨inner, rfl⟩ : ∃ n, steps = n + 1 := ⟨steps - 1, by omega⟩
      have taken := takeType_chars bound inner here.2 (by omega)
        (TypeSignature.argumentsChars others ++ '>' :: rest)
      have found := takeArgumentList_chars others (inner + 1) there (by omega) rest
      rw [← takeReference_eq here.1] at taken
      rw [takeArgumentList_exact here.1]
      refine Option.bind_eq_some_iff.2 ⟨(bound, _), taken, ?_⟩
      exact Option.bind_eq_some_iff.2 ⟨(others, rest), found, rfl⟩
    | «extends» bound | super bound =>
      rw [TypeSignature.argumentChars, List.length_cons] at enough
      obtain ⟨inner, rfl⟩ : ∃ n, steps = n + 1 := ⟨steps - 1, by omega⟩
      have taken := takeType_chars bound inner here.2 (by omega)
        (TypeSignature.argumentsChars others ++ '>' :: rest)
      have found := takeArgumentList_chars others (inner + 1) there (by omega) rest
      rw [← takeReference_eq here.1] at taken
      refine Option.bind_eq_some_iff.2 ⟨(bound, _), taken, ?_⟩
      exact Option.bind_eq_some_iff.2 ⟨(others, rest), found, rfl⟩

end

/-! Bounds and type parameters. -/

theorem takeReference_sound {steps : Nat} {text rest : List Char} {type : TypeSignature}
    (done : takeReference steps text = some (type, rest)) :
    text = type.chars ++ rest ∧ type.IsBound := (rulesSound steps).reference done

theorem takeReference_chars {bound : TypeSignature} (proper : bound.IsBound) (steps : Nat)
    (enough : 3 * bound.chars.length < steps) (rest : List Char) :
    takeReference steps (bound.chars ++ rest) = some (bound, rest) := by
  obtain ⟨steps, rfl⟩ : ∃ n, steps = n + 1 := ⟨steps - 1, by omega⟩
  rw [takeReference_eq proper.1]
  exact takeType_chars bound steps proper.2 (by omega) rest

theorem takeBounds_sound {steps : Nat} {text rest : List Char} {bounds : List TypeSignature}
    (done : takeBounds steps text = some (bounds, rest)) :
    text = boundChars bounds ++ rest ∧ ∀ bound ∈ bounds, bound.IsBound := by
  induction steps generalizing text bounds with
  | zero => cases done
  | succ steps ih =>
    unfold takeBounds at done
    split at done
    · cases done
    · cases done
    · next inner behind same =>
      cases same
      obtain ⟨⟨bound, middle⟩, found, done⟩ := Option.bind_eq_some_iff.1 done
      obtain ⟨⟨others, left⟩, more, done⟩ := Option.bind_eq_some_iff.1 done
      cases done
      obtain ⟨rfl, proper⟩ := takeReference_sound found
      obtain ⟨rfl, all⟩ := ih more
      refine ⟨?_, List.forall_mem_cons.2 ⟨proper, all⟩⟩
      simp [boundChars]
    · cases done
      refine ⟨rfl, ?_⟩
      intro bound member
      cases member

theorem takeBounds_chars {bounds : List TypeSignature} (proper : ∀ bound ∈ bounds, bound.IsBound)
    (steps : Nat) (enough : 3 * (boundChars bounds).length < steps) {c : Char}
    (ends : c ≠ ':') (rest : List Char) :
    takeBounds steps (boundChars bounds ++ c :: rest) = some (bounds, c :: rest) := by
  induction bounds generalizing steps with
  | nil =>
    obtain ⟨steps, rfl⟩ : ∃ n, steps = n + 1 := ⟨steps - 1, by omega⟩
    change takeBounds (steps + 1) (c :: rest) = _
    unfold takeBounds
    split
    · contradiction
    · contradiction
    · next _ same => exact absurd (List.cons.inj same).1 ends
    · rfl
  | cons bound others ih =>
    obtain ⟨here, all⟩ := List.forall_mem_cons.1 proper
    have chars : boundChars (bound :: others) = ':' :: (bound.chars ++ boundChars others) := rfl
    rw [chars, List.length_cons, List.length_append] at enough
    obtain ⟨steps, rfl⟩ : ∃ n, steps = n + 1 := ⟨steps - 1, by omega⟩
    have taken := takeReference_chars here steps (by omega) (boundChars others ++ c :: rest)
    have found := ih all steps (by omega)
    rw [chars, List.cons_append, List.append_assoc]
    refine Option.bind_eq_some_iff.2 ⟨(bound, _), taken, ?_⟩
    exact Option.bind_eq_some_iff.2 ⟨(others, c :: rest), found, rfl⟩

theorem ne_nil_of_takeBounds {steps : Nat} {text rest : List Char} {bounds : List TypeSignature}
    (done : takeBounds steps (':' :: text) = some (bounds, rest)) : bounds ≠ [] := by
  cases steps with
  | zero => cases done
  | succ steps =>
    obtain ⟨⟨bound, middle⟩, -, follow⟩ := Option.bind_eq_some_iff.1 done
    obtain ⟨⟨others, left⟩, -, last⟩ := Option.bind_eq_some_iff.1 follow
    cases last
    exact List.cons_ne_nil _ _

theorem takeTypeParameter_sound {steps : Nat} {text rest : List Char} {parameter : TypeParameter}
    (done : takeTypeParameter steps text = some (parameter, rest))
    (start : text.head? ≠ some '>') :
    text = parameter.chars ++ rest ∧ parameter.WellFormed := by
  obtain ⟨⟨name, behind⟩, found, follow⟩ := Option.bind_eq_some_iff.1 done
  clear done
  obtain ⟨rfl, identifier, c, tail, rfl, stops⟩ := takeIdentifier_sound found
  obtain rfl : c = ':' := by simpa using stops
  have first : name.toList.head? ≠ some '>' := by
    intro same
    apply start
    rw [List.head?_append, same]
    rfl
  rw [TypeParameter.chars_eq]
  dsimp only [List.drop_succ_cons, List.drop_zero] at follow
  split at follow
  · next behind same =>
    change tail = ':' :: behind at same
    obtain ⟨⟨interfaces, left⟩, bounded, done⟩ := Option.bind_eq_some_iff.1 follow
    cases done
    obtain ⟨chars, all⟩ := takeBounds_sound bounded
    refine ⟨?_, identifier, first, nofun, all, fun _ => ne_nil_of_takeBounds bounded⟩
    rw [same, chars]
    simp
  · obtain ⟨⟨bound, middle⟩, found, more⟩ := Option.bind_eq_some_iff.1 follow
    obtain ⟨⟨interfaces, left⟩, bounded, done⟩ := Option.bind_eq_some_iff.1 more
    cases done
    obtain ⟨chars, proper⟩ := takeReference_sound found
    obtain ⟨rfl, all⟩ := takeBounds_sound bounded
    change tail = _ at chars
    refine ⟨?_, identifier, first, ?_, all, nofun⟩
    · rw [chars]
      simp
    · rintro other ⟨⟩
      exact proper

theorem takeTypeParameter_chars {parameter : TypeParameter} (proper : parameter.WellFormed)
    (steps : Nat) (enough : 3 * parameter.chars.length < steps) {c : Char} (ends : c ≠ ':')
    (rest : List Char) :
    takeTypeParameter steps (parameter.chars ++ c :: rest) = some (parameter, c :: rest) := by
  rw [TypeParameter.chars_eq] at enough ⊢
  simp only [List.length_append, List.length_cons] at enough
  obtain ⟨identifier, -, classBound, interfaceBounds, least⟩ := proper
  obtain ⟨name, first, interfaces⟩ := parameter
  have named := takeIdentifier_append identifier (c := ':') rfl
    (first.elim [] TypeSignature.chars ++ boundChars interfaces ++ c :: rest)
  have bounded := takeBounds_chars interfaceBounds steps (by omega) ends rest
  rw [List.append_assoc, List.cons_append]
  refine Option.bind_eq_some_iff.2 ⟨(name, _), named, ?_⟩
  dsimp only [List.drop_succ_cons, List.drop_zero]
  cases first with
  | none =>
    -- the colon of the first interface bound stands where a class bound would
    cases interfaces with
    | nil => exact absurd rfl (least rfl)
    | cons bound others => exact Option.bind_eq_some_iff.2 ⟨(bound :: others, c :: rest), bounded, rfl⟩
  | some bound =>
    have here := classBound bound rfl
    simp only [Option.elim_some] at enough ⊢
    have taken := takeReference_chars here steps (by omega) (boundChars interfaces ++ c :: rest)
    rw [List.append_assoc]
    obtain ⟨d, tail, chars, start⟩ := chars_of_isReference here.1
    split
    · next behind same =>
      rw [chars] at same
      obtain ⟨rfl, -⟩ := List.cons.inj same
      simp at start
    · refine Option.bind_eq_some_iff.2 ⟨(bound, _), taken, ?_⟩
      exact Option.bind_eq_some_iff.2 ⟨(interfaces, c :: rest), bounded, rfl⟩

theorem start_of_typeParameter {parameter : TypeParameter} (proper : parameter.WellFormed) :
    ∃ c tail, parameter.chars = c :: tail ∧ c ≠ '>' ∧ c ≠ ':' := by
  obtain ⟨identifier, start, -⟩ := proper
  rw [TypeParameter.chars_eq]
  cases chars : parameter.name.toList with
  | nil => exact absurd (String.toList_eq_nil_iff.1 chars) identifier.nonempty
  | cons c tail =>
    rw [chars] at start
    have free := identifier.free c (by rw [chars]; exact List.mem_cons_self)
    refine ⟨c, _, rfl, ?_, ?_⟩
    · rintro rfl
      exact start rfl
    · rintro rfl
      cases free

theorem takeTypeParameterList_sound {steps : Nat} {text rest : List Char}
    {parameters : List TypeParameter}
    (done : takeTypeParameterList steps text = some (parameters, rest)) :
    text = parameters.flatMap TypeParameter.chars ++ '>' :: rest ∧
      ∀ parameter ∈ parameters, parameter.WellFormed := by
  induction steps generalizing text parameters with
  | zero => cases done
  | succ steps ih =>
    unfold takeTypeParameterList at done
    split at done
    · cases done
    · cases done
      refine ⟨rfl, ?_⟩
      intro parameter member
      cases member
    · next text _ _ inner same other =>
      cases same
      obtain ⟨⟨first, middle⟩, found, done⟩ := Option.bind_eq_some_iff.1 done
      obtain ⟨⟨others, left⟩, more, done⟩ := Option.bind_eq_some_iff.1 done
      cases done
      have start : text.head? ≠ some '>' := by
        intro same
        obtain ⟨tail, rfl⟩ := List.head?_eq_some_iff.1 same
        exact other tail rfl
      obtain ⟨rfl, proper⟩ := takeTypeParameter_sound found start
      obtain ⟨rfl, all⟩ := ih more
      refine ⟨?_, List.forall_mem_cons.2 ⟨proper, all⟩⟩
      simp

theorem takeTypeParameterList_chars {parameters : List TypeParameter}
    (proper : ∀ parameter ∈ parameters, parameter.WellFormed) (steps : Nat)
    (enough : 3 * (parameters.flatMap TypeParameter.chars).length + 2 ≤ steps) (rest : List Char) :
    takeTypeParameterList steps (parameters.flatMap TypeParameter.chars ++ '>' :: rest) =
      some (parameters, rest) := by
  induction parameters generalizing steps with
  | nil =>
    obtain ⟨steps, rfl⟩ : ∃ n, steps = n + 1 := ⟨steps - 1, by omega⟩
    rfl
  | cons first others ih =>
    obtain ⟨here, all⟩ := List.forall_mem_cons.1 proper
    obtain ⟨c, tail, chars, start, -⟩ := start_of_typeParameter here
    rw [List.flatMap_cons, List.length_append] at enough
    have positive : 0 < first.chars.length := by
      rw [chars]
      exact Nat.succ_pos _
    obtain ⟨steps, rfl⟩ : ∃ n, steps = n + 1 := ⟨steps - 1, by omega⟩
    have behind : ∃ d left, others.flatMap TypeParameter.chars ++ '>' :: rest = d :: left ∧
        d ≠ ':' := by
      cases others with
      | nil => exact ⟨'>', rest, rfl, by decide⟩
      | cons second more =>
        obtain ⟨d, left, starts, -, other⟩ := start_of_typeParameter (all second List.mem_cons_self)
        rw [List.flatMap_cons, starts]
        exact ⟨d, _, rfl, other⟩
    obtain ⟨d, left, follows, ends⟩ := behind
    have taken := takeTypeParameter_chars here steps (by omega) ends left
    have found := ih all steps (by omega)
    rw [← follows] at taken
    rw [List.flatMap_cons, List.append_assoc]
    unfold takeTypeParameterList
    split
    · contradiction
    · next _ same =>
      rw [chars] at same
      exact absurd (List.cons.inj same).1 start
    · next inner same _ =>
      cases same
      refine Option.bind_eq_some_iff.2 ⟨(first, _), taken, ?_⟩
      exact Option.bind_eq_some_iff.2 ⟨(others, rest), found, rfl⟩

end Signature

end ClassRenaming
