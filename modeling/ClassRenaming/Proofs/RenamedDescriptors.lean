import ClassRenaming.Proofs.DescriptorGrammar
import ClassRenaming.Proofs.SpelledWords

/-!
Descriptors under a renaming. The table replaces parts of a text and knows nothing of types; but if its
pairs fit descriptors, what it makes of one is the descriptor of the same type with every class in it
renamed.
-/

namespace ClassRenaming

namespace Descriptor

def marks : List Char := ['B', 'C', 'D', 'F', 'I', 'J', 'S', 'Z', 'V', 'L', '[', '(', ')', ';']

def ends : List Char := [';']

end Descriptor

open Descriptor (marks ends)

/-! Types, spelled name by name. -/

section Spelling

variable {spell : List Char → List Char} {word : String → String}
  (spells : SpellsWords marks ends spell word)

include spells

theorem FieldType.chars_spelled (type : FieldType) (rest : List Char) :
    spell (type.chars ++ rest) = (type.mapNames word).chars ++ spell rest := by
  induction type with
  | base type =>
    have listed : type.letter ∈ marks := by
      cases type <;> decide
    exact spells.mark type.letter listed rest
  | object name =>
    simp only [chars, mapNames, List.cons_append, List.append_assoc, List.nil_append, spells.toList]
    rw [spells.mark 'L' (by decide), spells.stop ';' (by decide)]
  | array component ih =>
    rw [chars, List.cons_append, spells.mark '[' (by decide), ih]
    rfl

theorem MethodType.chars_spelled (type : MethodType) (rest : List Char) :
    spell (type.chars ++ rest) = (type.mapNames word).chars ++ spell rest := by
  obtain ⟨parameters, result⟩ := type
  have last : spell (result.elim ['V'] FieldType.chars ++ rest) =
      (result.map (FieldType.mapNames word)).elim ['V'] FieldType.chars ++ spell rest := by
    cases result with
    | none => exact spells.mark 'V' (by decide) rest
    | some type => exact type.chars_spelled spells rest
  rw [chars_eq, chars_eq]
  simp only [List.append_assoc, List.cons_append]
  rw [spells.mark '(' (by decide), SpellsWords.flatMap (FieldType.chars_spelled spells),
    spells.mark ')' (by decide), last]
  rfl

theorem FieldType.render_spelled (type : FieldType) :
    word type.render = (type.mapNames word).render :=
  spells.ofList (type.chars_spelled spells)

theorem MethodType.render_spelled (type : MethodType) :
    word type.render = (type.mapNames word).render :=
  spells.ofList (type.chars_spelled spells)

end Spelling

namespace Renaming

variable {table : Renaming}

theorem FitsMarks.properName (fits : table.FitsMarks marks ends) (name : String)
    (proper : ProperName name) : ProperName (table.binary name) := by
  have shape : IsIdentifier (· == ';') name := by
    refine ⟨proper.1, ?_⟩
    intro c listed
    exact beq_eq_false_iff_ne.2 fun same => proper.2 (same ▸ listed)
  have kept := fits.isIdentifier (by simp [ends]) shape
  refine ⟨kept.nonempty, ?_⟩
  intro listed
  cases kept.free ';' listed

/-- If no source of a table is empty or starts like a part of a descriptor, no target is empty and no
source or target holds a semicolon, then renaming the text of a descriptor is renaming the classes in
it: the new text is read as the type with the new names, of the same shape and with the same number of
slots. -/
theorem binary_descriptor (fits : table.FitsMarks marks ends) (text : String) :
    (∀ type, Descriptor.fieldType text = .ok type →
      Descriptor.fieldType (table.binary text) = .ok (type.mapNames table.binary) ∧
        (type.mapNames table.binary).shape = type.shape ∧
        (type.mapNames table.binary).slots = type.slots) ∧
    ∀ type, Descriptor.methodType text = .ok type →
      Descriptor.methodType (table.binary text) = .ok (type.mapNames table.binary) ∧
        (type.mapNames table.binary).shape = type.shape ∧
        (type.mapNames table.binary).parameterSlots = type.parameterSlots := by
  constructor
  · intro type parsed
    obtain ⟨proper, rfl⟩ := fieldType_eq_ok_iff.1 parsed
    have spelled := type.render_spelled fits.spellsWords
    refine ⟨?_, type.shape_mapNames, type.slots_mapNames⟩
    exact fieldType_eq_ok_iff.2 ⟨proper.mapNames fits.properName, spelled.symm⟩
  · intro type parsed
    obtain ⟨proper, rfl⟩ := methodType_eq_ok_iff.1 parsed
    have spelled := type.render_spelled fits.spellsWords
    refine ⟨?_, type.shape_mapNames, type.parameterSlots_mapNames⟩
    exact methodType_eq_ok_iff.2 ⟨proper.mapNames fits.properName, spelled.symm⟩

/-- A table whose second pair goes on with what the first one made. -/
def servletTable : Renaming :=
  ⟨[⟨"javax/servlet", "jakarta/servlet"⟩, ⟨"jakarta/servlet/http", "web"⟩]⟩

theorem servletTable_binary_descriptor :
    servletTable.FitsMarks marks ends ∧
      Descriptor.methodType "(I[[Ljavax/servlet/Filter;J)Ljavax/servlet/http/Cookie;" =
        .ok ⟨[.base .int, .array (.array (.object "javax/servlet/Filter")), .base .long],
          some (.object "javax/servlet/http/Cookie")⟩ ∧
      Descriptor.methodType (servletTable.binary
          "(I[[Ljavax/servlet/Filter;J)Ljavax/servlet/http/Cookie;") =
        .ok ⟨[.base .int, .array (.array (.object "jakarta/servlet/Filter")), .base .long],
          some (.object "web/Cookie")⟩ := by
  have fits : servletTable.FitsMarks marks ends :=
    .of_isLower (by decide) (by decide) (by decide) (by decide)
  have parsed : Descriptor.methodType "(I[[Ljavax/servlet/Filter;J)Ljavax/servlet/http/Cookie;" =
      .ok ⟨[.base .int, .array (.array (.object "javax/servlet/Filter")), .base .long],
        some (.object "javax/servlet/http/Cookie")⟩ := by
    decide
  obtain ⟨renamed, -⟩ := (binary_descriptor fits _).2 _ parsed
  refine ⟨fits, parsed, renamed.trans ?_⟩
  decide

end Renaming

end ClassRenaming
