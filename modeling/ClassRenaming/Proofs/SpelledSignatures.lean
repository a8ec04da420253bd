import ClassRenaming.Proofs.SignatureNames
import ClassRenaming.Proofs.SpelledWords

/-!
The text of a signature, spelled word by word, is that of the same tree with every word spelled: names
of classes and names of type variables alike. What stands between the words are marks of the grammar,
and a word ends at one of four of them.
-/

namespace ClassRenaming

def Signature.marks : List Char :=
  ['B', 'C', 'D', 'F', 'I', 'J', 'S', 'Z', 'V', 'L', 'T', '[', '(', ')', '<', '>', '*', '+', '-', '.',
    ':', ';', '^']

def Signature.ends : List Char := [';', '<', '.', ':']

open Signature (marks ends)

theorem BaseType.letter_mem_marks (type : BaseType) : type.letter ∈ marks := by
  cases type <;> decide

section Trees

variable {spell : List Char → List Char} {word : String → String}

namespace TypeSignature

theorem mapArguments_eq_nil_iff {names labels : String → String}
    {arguments : List (TypeArgument TypeSignature)} :
    arguments = [] ↔ mapArguments names labels arguments = [] := by
  cases arguments <;> simp [mapArguments]

theorem bracketed_spelled (spells : SpellsWords marks ends spell word) (front : List Char)
    {arguments others : List (TypeArgument TypeSignature)}
    (empty : arguments = [] ↔ others = [])
    (inside : ∀ rest, spell (argumentsChars arguments ++ rest) = argumentsChars others ++ spell rest)
    {c : Char} (closes : c = '.' ∨ c = ';') (rest : List Char) :
    spell (front ++ (bracketed arguments ++ c :: rest)) =
      spell front ++ (bracketed others ++ c :: spell rest) := by
  have listed : c ∈ marks ∧ c ∈ ends := by
    rcases closes with rfl | rfl <;> decide
  by_cases bare : arguments = []
  · rw [bare, empty.1 bare]
    exact spells.stop c listed.2 front rest
  · have nonempty : others ≠ [] := fun same => bare (empty.2 same)
    rw [Signature.bracketed_eq bare, Signature.bracketed_eq nonempty]
    simp only [List.cons_append, List.append_assoc, List.nil_append]
    rw [spells.stop '<' (by decide), inside, spells.mark '>' (by decide), spells.mark c listed.1]

mutual

theorem chars_spelled (spells : SpellsWords marks ends spell word) :
    ∀ (type : TypeSignature) (rest : List Char),
    spell (type.chars ++ rest) = (type.mapWords word word).chars ++ spell rest
  | .base type, rest => spells.mark type.letter type.letter_mem_marks rest
  | .array component, rest => by
    rw [chars, List.cons_append, spells.mark '[' (by decide), chars_spelled spells component rest]
    rfl
  | .variable name, rest => by
    simp only [chars, mapWords, List.cons_append, List.append_assoc, List.nil_append, spells.toList]
    rw [spells.mark 'T' (by decide), spells.stop ';' (by decide)]
  | .class segments, rest => by
    simp only [chars, mapWords, List.cons_append, List.append_assoc, List.nil_append]
    rw [spells.mark 'L' (by decide), segmentChars_spelled spells segments (.inr rfl) rest]

theorem segmentChars_spelled (spells : SpellsWords marks ends spell word) :
    ∀ (segments : List (Segment TypeSignature)) {c : Char} (_ : c = '.' ∨ c = ';')
    (rest : List Char), spell (segmentChars segments ++ c :: rest) =
      segmentChars (mapSegments word word segments) ++ c :: spell rest
  | [], c, closes, rest => by
    have listed : c ∈ marks := by
      rcases closes with rfl | rfl <;> decide
    exact spells.mark c listed rest
  | [⟨name, arguments⟩], c, closes, rest => by
    have last := bracketed_spelled spells name.toList mapArguments_eq_nil_iff
      (argumentsChars_spelled spells arguments) closes rest
    simp only [segmentChars, mapSegments, List.append_assoc, last, spells.toList]
  | ⟨name, arguments⟩ :: second :: others, c, closes, rest => by
    have later := segmentChars_spelled spells (second :: others) closes rest
    have here := bracketed_spelled spells name.toList mapArguments_eq_nil_iff
      (argumentsChars_spelled spells arguments) (.inl rfl)
      (segmentChars (second :: others) ++ c :: rest)
    have nonempty : mapSegments word word (second :: others) ≠ [] := nofun
    rw [mapSegments, Signature.segmentChars_cons _ _ nonempty, Signature.segmentChars_cons _ _ (by simp)]
    simp only [List.append_assoc, List.cons_append, here, later, spells.toList]

theorem argumentsChars_spelled (spells : SpellsWords marks ends spell word) :
    ∀ (arguments : List (TypeArgument TypeSignature)) (rest : List Char),
      spell (argumentsChars arguments ++ rest) =
        argumentsChars (mapArguments word word arguments) ++ spell rest
  | [], _ => rfl
  | first :: others, rest => by
    rw [argumentsChars, List.append_assoc, argumentChars_spelled spells first,
      argumentsChars_spelled spells others, mapArguments, argumentsChars, List.append_assoc]

theorem argumentChars_spelled (spells : SpellsWords marks ends spell word) :
    ∀ (argument : TypeArgument TypeSignature) (rest : List Char),
    spell (argumentChars argument ++ rest) =
      argumentChars (mapArgument word word argument) ++ spell rest
  | .any, rest => spells.mark '*' (by decide) rest
  | .exact bound, rest => chars_spelled spells bound rest
  | .extends bound, rest => by
    rw [argumentChars, List.cons_append, spells.mark '+' (by decide), chars_spelled spells bound]
    rfl
  | .super bound, rest => by
    rw [argumentChars, List.cons_append, spells.mark '-' (by decide), chars_spelled spells bound]
    rfl

end

end TypeSignature

variable (spells : SpellsWords marks ends spell word)

include spells

theorem TypeParameter.chars_spelled (parameter : TypeParameter) (rest : List Char) :
    spell (parameter.chars ++ rest) = (parameter.mapWords word word).chars ++ spell rest := by
  have first : ∀ rest, spell (parameter.classBound.elim [] TypeSignature.chars ++ rest) =
      (parameter.mapWords word word).classBound.elim [] TypeSignature.chars ++ spell rest := by
    intro rest
    rw [TypeParameter.mapWords]
    cases parameter.classBound with
    | none => rfl
    | some bound => exact TypeSignature.chars_spelled spells bound rest
  have others : ∀ rest, spell (boundChars parameter.interfaceBounds ++ rest) =
      boundChars (parameter.mapWords word word).interfaceBounds ++ spell rest := by
    apply SpellsWords.flatMap
    intro bound rest
    rw [List.cons_append, spells.mark ':' (by decide), TypeSignature.chars_spelled spells bound rest]
    rfl
  rw [TypeParameter.chars_eq, TypeParameter.chars_eq]
  simp only [List.append_assoc, List.cons_append]
  rw [spells.stop ':' (by decide), first, others]
  simp only [TypeParameter.mapWords, spells.toList]

theorem TypeParameter.listChars_spelled (parameters : List TypeParameter) (rest : List Char) :
    spell (listChars parameters ++ rest) =
      listChars (parameters.map (mapWords word word)) ++ spell rest := by
  cases parameters with
  | nil => rfl
  | cons first others =>
    have inside := SpellsWords.flatMap (TypeParameter.chars_spelled spells) (first :: others)
    rw [List.map_cons] at inside ⊢
    simp only [listChars, List.cons_append, List.append_assoc, List.nil_append]
    rw [spells.mark '<' (by decide), inside, spells.mark '>' (by decide)]

theorem ClassSignature.chars_spelled (signature : ClassSignature) (rest : List Char) :
    spell (signature.chars ++ rest) = (signature.mapWords word word).chars ++ spell rest := by
  have each : ∀ (type : ClassType) (rest : List Char), spell (type.chars ++ rest) =
      ClassType.chars (TypeSignature.mapSegments word word type) ++ spell rest :=
    fun type => TypeSignature.chars_spelled spells (.class type)
  simp only [chars, List.append_assoc]
  rw [TypeParameter.listChars_spelled spells, each, SpellsWords.flatMap each]
  rfl

theorem MethodSignature.chars_spelled (signature : MethodSignature) (rest : List Char) :
    spell (signature.chars ++ rest) = (signature.mapWords word word).chars ++ spell rest := by
  have result : ∀ rest, spell (signature.result.elim ['V'] TypeSignature.chars ++ rest) =
      (signature.mapWords word word).result.elim ['V'] TypeSignature.chars ++ spell rest := by
    intro rest
    rw [MethodSignature.mapWords]
    cases signature.result with
    | none => exact spells.mark 'V' (by decide) rest
    | some type => exact TypeSignature.chars_spelled spells type rest
  have throws : ∀ rest, spell (thrownChars signature.throws ++ rest) =
      thrownChars (signature.mapWords word word).throws ++ spell rest := by
    apply SpellsWords.flatMap
    intro type rest
    rw [List.cons_append, spells.mark '^' (by decide), TypeSignature.chars_spelled spells type rest]
    rfl
  rw [chars_eq, chars_eq]
  simp only [List.append_assoc, List.cons_append]
  rw [TypeParameter.listChars_spelled spells, spells.mark '(' (by decide),
    SpellsWords.flatMap (TypeSignature.chars_spelled spells), spells.mark ')' (by decide), result,
    throws]
  rfl

theorem TypeSignature.render_spelled (type : TypeSignature) :
    word type.render = (type.mapWords word word).render :=
  spells.ofList (TypeSignature.chars_spelled spells type)

theorem ClassSignature.render_spelled (signature : ClassSignature) :
    word signature.render = (signature.mapWords word word).render :=
  spells.ofList (ClassSignature.chars_spelled spells signature)

theorem MethodSignature.render_spelled (signature : MethodSignature) :
    word signature.render = (signature.mapWords word word).render :=
  spells.ofList (MethodSignature.chars_spelled spells signature)

end Trees

end ClassRenaming
