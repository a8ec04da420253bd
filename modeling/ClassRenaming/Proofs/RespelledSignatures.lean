import ClassRenaming.Proofs.SpelledSignatures
import ClassRenaming.Proofs.StoredText

/-!
Signatures that are stored and read again. Halves of pairs that meet in a name are joined, but none is
joined across the characters around the names. So the text that comes back is that of the same tree
with every name spelled anew, and what a map of class names made of it, the map makes again.
-/

namespace ClassRenaming

namespace ModifiedUtf8

theorem Joins.refl : ∀ chars : List Char, Joins chars chars
  | [] => .nil
  | c :: chars => .keep c (Joins.refl chars)

theorem unitsChars_append_cons {unit : UInt16} (whole : isHigh unit = false ∧ isLow unit = false)
    (front back : List UInt16) :
    unitsChars (front ++ unit :: back) = unitsChars front ++ unitChar unit :: unitsChars back := by
  induction front using unitsChars.induct with
  | case1 => exact (unitsChars_cons (by simp [whole.1])).1
  | case2 first =>
    have apart : ∀ next ∈ (unit :: back).head?, ¬(isHigh first = true ∧ isLow next = true) := by
      rintro _ ⟨⟩ ⟨-, low⟩
      rw [whole.2] at low
      cases low
    have rest := (@unitsChars_cons unit back (by simp [whole.1])).1
    rw [List.singleton_append, (unitsChars_cons apart).1, rest]
    rfl
  | case3 first second rest pair ih =>
    simp only [List.cons_append, unitsChars, pair, if_true, ih]
  | case4 first second rest apart ih =>
    simp only [List.cons_append] at ih
    simp only [List.cons_append, unitsChars, apart, Bool.false_eq_true, if_false, ih]

/-- A way of spelling texts anew that at most joins characters, and none across a small one. -/
structure Respells (spell : List Char → List Char) : Prop where
  joins : ∀ chars, Joins chars (spell chars)
  split : ∀ front (c : Char) back, c.toNat < 0xD800 →
    spell (front ++ c :: back) = spell front ++ c :: spell back

theorem Respells.id : Respells id := ⟨Joins.refl, fun _ _ _ _ => rfl⟩

def rejoin (chars : List Char) : List Char := unitsChars (chars.flatMap charUnits)

theorem respells_rejoin : Respells rejoin := by
  refine ⟨joins_unitsChars, fun front c back small => ?_⟩
  have units : charUnits c = [c.toNat.toUInt16] := by
    have plain : isEscape c = false := by
      rw [Bool.eq_false_iff, ne_eq, isEscape_iff]
      omega
    rw [charUnits, plain, if_neg Bool.false_ne_true, if_pos (by omega)]
  have same : c.toNat.toUInt16.toNat = c.toNat := by
    simp only [Nat.toUInt16, UInt16.toNat_ofNat']
    omega
  have whole : isHigh c.toNat.toUInt16 = false ∧ isLow c.toNat.toUInt16 = false := by
    constructor
    · rw [Bool.eq_false_iff, ne_eq, isHigh_iff, same]
      omega
    · rw [Bool.eq_false_iff, ne_eq, isLow_iff, same]
      omega
  have char : unitChar c.toNat.toUInt16 = c := by simp [unitChar, whole, same]
  rw [rejoin, List.flatMap_append, List.flatMap_cons, units, List.singleton_append,
    unitsChars_append_cons whole, char]
  rfl

def respell (spell : List Char → List Char) (text : String) : String :=
  String.ofList (spell text.toList)

theorem respell_id (text : String) : respell id text = text := String.ofList_toList

namespace Respells

variable {spell : List Char → List Char} (respells : Respells spell)

include respells

theorem nil : spell [] = [] := by
  have joins := respells.joins []
  generalize spell [] = chars at joins
  cases joins
  rfl

theorem cons (c : Char) (back : List Char) (small : c.toNat < 0xD800) :
    spell (c :: back) = c :: spell back := by
  have split := respells.split [] c back small
  rwa [respells.nil] at split

theorem ne_nil {chars : List Char} (nonempty : chars ≠ []) : spell chars ≠ [] := by
  have joins := respells.joins chars
  intro empty
  rw [empty] at joins
  cases joins
  exact nonempty rfl

theorem mem {c : Char} {chars : List Char} (small : c.toNat < 0x10000) (member : c ∈ spell chars) :
    c ∈ chars := by
  have joins := respells.joins chars
  have alone : ∀ d ∈ [c], d.toNat < 0x10000 := by simpa using small
  exact (joins.isInfix_of_isInfix alone ((List.singleton_infix_iff c _).2 member)).subset (by simp)

theorem isIdentifier {stop : Char → Bool} (small : ∀ c, stop c = true → c.toNat < 0x10000)
    {name : String} (proper : IsIdentifier stop name) : IsIdentifier stop (respell spell name) := by
  constructor
  case nonempty =>
    intro empty
    have nonempty : name.toList ≠ [] := fun empty => proper.nonempty (String.toList_eq_nil_iff.1 empty)
    exact respells.ne_nil nonempty (String.ofList_eq_empty_iff.1 empty)
  case free =>
    intro c member
    rw [respell, String.toList_ofList] at member
    by_contra stops
    rw [Bool.not_eq_false] at stops
    have free := proper.free c (respells.mem (small c stops) member)
    rw [free] at stops
    cases stops

theorem keepsShape : TypeSignature.KeepsShape (respell spell) := by
  intro name proper
  apply respells.isIdentifier _ proper
  intro c stops
  simp only [endsSegment, Bool.or_eq_true, beq_iff_eq] at stops
  rcases stops with (rfl | rfl) | rfl
  all_goals decide

theorem keepsLabels : TypeSignature.KeepsLabels (respell spell) := by
  constructor
  case inside =>
    intro name proper
    apply respells.isIdentifier _ proper
    intro c stops
    rw [eq_of_beq stops]
    decide
  case parameter =>
    intro name proper
    apply respells.isIdentifier _ proper
    intro c stops
    rw [eq_of_beq stops]
    decide
  case start =>
    intro name start
    rw [respell, String.toList_ofList] at start
    have small : ∀ c ∈ ['>'], c.toNat < 0x10000 := List.forall_mem_singleton.2 (by decide)
    have front : ['>'] <+: spell name.toList := by
      cases same : spell name.toList with
      | nil => simp [same] at start
      | cons c rest =>
        rw [same] at start
        cases start
        exact ⟨rest, rfl⟩
    obtain ⟨rest, same⟩ := (respells.joins name.toList).starts_of_starts small front
    rw [← same]
    rfl

end Respells

end ModifiedUtf8

open ModifiedUtf8

theorem ModifiedUtf8.Respells.spellsWords {spell : List Char → List Char} (respells : Respells spell) :
    SpellsWords Signature.marks Signature.ends spell (respell spell) := by
  have smallMarks : ∀ c ∈ Signature.marks, c.toNat < 0xD800 := by simp [Signature.marks]
  have smallEnds : ∀ c ∈ Signature.ends, c.toNat < 0xD800 := by simp [Signature.ends]
  constructor
  case toList =>
    intro name
    exact String.toList_ofList
  case nil => exact respells.nil
  case mark =>
    intro c listed rest
    exact respells.cons c rest (smallMarks c listed)
  case stop =>
    intro c listed front rest
    exact respells.split front c rest (smallEnds c listed)

namespace Signature

variable {f : String → String} {spell : List Char → List Char} {kind : Kind} {text printed : String}

theorem mapped?_again (respells : Respells spell)
    (again : ∀ name, f (respell spell (f name)) = respell spell (f name))
    (shape : TypeSignature.KeepsShape f) (done : mapped? f text kind = some printed) :
    mapped? f (respell spell printed) kind = some (respell spell printed) := by
  have same : f ∘ respell spell ∘ f = respell spell ∘ f := funext again
  cases kind with
  | type =>
    obtain ⟨signature, parsed, rfl⟩ := Option.map_eq_some_iff.1 done
    obtain ⟨-, proper⟩ := class?_eq_some_iff.1 parsed
    have mapped := ClassSignature.wellFormed_mapWords shape .id proper
    have result := ClassSignature.wellFormed_mapWords respells.keepsShape respells.keepsLabels mapped
    rw [ClassSignature.mapNamesM_id, ClassSignature.render_spelled respells.spellsWords]
    refine (mapped?_class result).trans ?_
    rw [ClassSignature.mapWords_mapWords, ClassSignature.mapNames,
      ClassSignature.mapWords_mapWords, same]
    rfl
  | method =>
    obtain ⟨signature, parsed, rfl⟩ := Option.map_eq_some_iff.1 done
    obtain ⟨-, proper⟩ := method?_eq_some_iff.1 parsed
    have mapped := MethodSignature.wellFormed_mapWords shape .id proper
    have result := MethodSignature.wellFormed_mapWords respells.keepsShape respells.keepsLabels mapped
    rw [MethodSignature.mapNamesM_id, MethodSignature.render_spelled respells.spellsWords]
    refine (mapped?_method result).trans ?_
    rw [MethodSignature.mapWords_mapWords, MethodSignature.mapNames,
      MethodSignature.mapWords_mapWords, same]
    rfl
  | field =>
    obtain ⟨type, parsed, rfl⟩ := Option.map_eq_some_iff.1 done
    obtain ⟨-, proper⟩ := field?_eq_some_iff.1 parsed
    have mapped := TypeSignature.wellFormed_mapWords shape .id type proper
    have result := TypeSignature.wellFormed_mapWords respells.keepsShape respells.keepsLabels _ mapped
    rw [TypeSignature.mapNamesM_id, TypeSignature.render_spelled respells.spellsWords]
    refine (mapped?_field result).trans ?_
    rw [TypeSignature.mapWords_mapWords, TypeSignature.mapNames, TypeSignature.mapWords_mapWords,
      same]
    rfl

end Signature

end ClassRenaming
