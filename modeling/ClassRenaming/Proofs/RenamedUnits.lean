import ClassRenaming.Proofs.StoredUnits
import ClassRenaming.Proofs.Substitution

/-!
Renaming unit by unit. In a text that has the halves of no pair side by side, names are found and
replaced as they are in the units of the text, as long as no name has a character that stands for half
of a pair. No name is empty either: an empty target could put two halves side by side.
-/

namespace ClassRenaming

namespace ModifiedUtf8

def halves (chars : List Char) : List Char := (chars.flatMap charUnits).map unitChar

def Whole (chars : List Char) : Prop := ∀ c ∈ chars, isEscape c = false

instance (chars : List Char) : Decidable (Whole chars) :=
  List.decidableBAll (fun c => isEscape c = false) chars

def Apart (chars : List Char) : Prop :=
  chars.IsChain fun c next => ¬(isEscapedHigh c = true ∧ isEscapedLow next = true)

variable {part source target text : List Char}

theorem spelled_ofList (chars : List Char) :
    spelled (String.ofList chars) = String.ofList (halves chars) := by
  rw [spelled, textUnits, String.toList_ofList, spell, halves]

theorem toList_spelled (text : String) : (spelled text).toList = halves text.toList :=
  String.toList_ofList

theorem halves_append (front back : List Char) :
    halves (front ++ back) = halves front ++ halves back := by
  simp [halves]

theorem halves_cons (c : Char) (text : List Char) : halves (c :: text) = halves [c] ++ halves text :=
  halves_append [c] text

theorem halves_char (c : Char) : (∃ half, halves [c] = [half]) ∨
    ∃ high low, isLow low = true ∧ halves [c] = [high, unitChar low] := by
  have form := units_charUnits c
  simp only [halves, List.flatMap_cons, List.flatMap_nil, List.append_nil]
  generalize charUnits c = units at form ⊢
  cases form with
  | half unit | one unit => exact .inl ⟨unitChar unit, rfl⟩
  | pair high low plain isPair upper lower =>
    have both := halves_of_units upper lower
    rw [Bool.and_eq_true] at both
    exact .inr ⟨unitChar high, low, both.2, rfl⟩

theorem halves_ne_nil (nonempty : text ≠ []) : halves text ≠ [] := by
  obtain ⟨c, rest, rfl⟩ := List.exists_cons_of_ne_nil nonempty
  rw [halves_cons]
  rcases halves_char c with ⟨half, here⟩ | ⟨high, low, -, here⟩ <;> simp [here]

theorem flatMap_halves (chars : List Char) :
    (halves chars).flatMap charUnits = chars.flatMap charUnits := by
  rw [halves, List.flatMap_map]
  simp [charUnits_unitChar]

theorem unitsChars_halves (apart : Apart text) :
    unitsChars ((halves text).flatMap charUnits) = text := by
  rw [flatMap_halves, (unitsChars_flatMap apart).1]

theorem unitsChars_whole (whole : Whole part) (units : List UInt16) :
    unitsChars (part.flatMap charUnits ++ units) = part ++ unitsChars units := by
  induction part with
  | nil => rfl
  | cons c part ih =>
    have later := ih fun d member => whole d (List.mem_cons_of_mem c member)
    have plain := whole c List.mem_cons_self
    rw [List.flatMap_cons, List.append_assoc]
    have form := units_charUnits c
    generalize charUnits c = units at form
    cases form with
    | half unit escape same =>
      rw [plain] at escape
      cases escape
    | one unit same alone =>
      have back : unitChar unit = c := by simp [unitChar, alone, same]
      rw [List.singleton_append, (unitsChars_cons (by simp [alone.1])).1, later, back]
      rfl
    | pair high low plain isPair upper lower =>
      have both := halves_of_units upper lower
      simp [unitsChars, both, later, pairChar_of_units isPair upper lower]

/-! What is read has the halves of no pair side by side. -/

theorem charUnits_of_escape {c : Char} (escape : isEscape c = true) :
    ∃ unit, charUnits c = [unit] ∧ unit.toNat = c.toNat - 0x102000 := by
  have bounds := toNat_char_bounds c
  rw [isEscape_iff] at escape
  have form := units_charUnits c
  generalize charUnits c = units at form ⊢
  cases form with
  | half unit _ same =>
    refine ⟨unit, rfl, ?_⟩
    rw [same, escapeBase]
    omega
  | one unit same =>
    have bound := unit.toNat_lt
    omega
  | pair high low plain =>
    rw [Bool.eq_false_iff, ne_eq, isEscape_iff] at plain
    omega

theorem low_of_head {units : List UInt16} (keep : pairsKeep units = true) {c : Char}
    (first : c ∈ (unitsChars units).head?) (low : isEscapedLow c = true) :
    ∃ unit ∈ units.head?, isLow unit = true := by
  have same := flatMap_unitsChars keep
  obtain ⟨others, here⟩ := List.head?_eq_some_iff.1 first
  rw [isEscapedLow_iff] at low
  obtain ⟨unit, alone, code⟩ := charUnits_of_escape ((isEscape_iff c).2 (by omega))
  rw [here, List.flatMap_cons, alone] at same
  refine ⟨unit, by rw [← same]; rfl, ?_⟩
  have bounds := toNat_char_bounds c
  rw [isLow_iff]
  omega

theorem apart_unitsChars {units : List UInt16} (keep : pairsKeep units = true) :
    Apart (unitsChars units) := by
  induction units using unitsChars.induct with
  | case1 => exact .nil
  | case2 unit => exact .singleton _
  | case3 first second rest isPair ih =>
    rw [pairsKeep, if_pos isPair, Bool.and_eq_true, Bool.not_eq_true'] at keep
    rw [unitsChars, if_pos isPair]
    refine List.isChain_cons.2 ⟨fun next _ both => ?_, ih keep.2⟩
    simp [isEscapedHigh, keep.1] at both
  | case4 first second rest apart ih =>
    rw [pairsKeep, if_neg apart] at keep
    rw [unitsChars, if_neg apart]
    refine List.isChain_cons.2 ⟨fun next here both => ?_, ih keep⟩
    obtain ⟨unit, start, low⟩ := low_of_head keep here both.2
    cases start
    have high := both.1
    rw [isEscapedHigh_iff] at high
    obtain ⟨unit, alone, code⟩ := charUnits_of_escape ((isEscape_iff _).2 high.1)
    rw [charUnits_unitChar] at alone
    cases alone
    rw [low, Bool.and_true, isHigh_iff] at apart
    omega

/-! Where a whole name occurs. -/

theorem prefix_halves (whole : Whole part) (apart : Apart text) :
    halves part <+: halves text ↔ part <+: text := by
  constructor
  · rintro ⟨rest, same⟩
    have back := unitsChars_halves apart
    rw [← same, List.flatMap_append, flatMap_halves, unitsChars_whole whole] at back
    exact ⟨_, back⟩
  · rintro ⟨rest, rfl⟩
    rw [halves_append]
    exact List.prefix_append _ _

theorem not_prefix_low (whole : Whole part) (nonempty : part ≠ []) {low : UInt16}
    (isLow : isLow low = true) (rest : List Char) : ¬halves part <+: unitChar low :: rest := by
  intro starts
  cases part with
  | nil => exact nonempty rfl
  | cons c part =>
    have first : (charUnits c ++ part.flatMap charUnits).head? = .some low := by
      have nonempty : charUnits c ≠ [] := by
        have form := units_charUnits c
        generalize charUnits c = units at form ⊢
        cases form <;> exact List.cons_ne_nil _ _
      obtain ⟨unit, units, here⟩ := List.exists_cons_of_ne_nil nonempty
      rw [halves, List.flatMap_cons, here] at starts
      have same := congrArg charUnits (List.cons_prefix_cons.1 starts).1
      rw [charUnits_unitChar, charUnits_unitChar] at same
      rw [here, List.cons_append, List.head?_cons, (List.cons.inj same).1]
    have escaped := escapedLow_of_head first isLow
    have plain := whole c List.mem_cons_self
    rw [isEscapedLow_iff] at escaped
    rw [Bool.eq_false_iff, ne_eq, isEscape_iff] at plain
    omega

theorem infix_halves (whole : Whole part) (nonempty : part ≠ []) (apart : Apart text) :
    halves part <:+: halves text ↔ part <:+: text := by
  induction text with
  | nil =>
    have front := prefix_halves whole apart
    have empty : halves [] = [] := rfl
    rw [empty] at front ⊢
    rwa [List.infix_nil, List.infix_nil, ← List.prefix_nil, ← List.prefix_nil]
  | cons c text ih =>
    have front := prefix_halves whole apart
    have later := ih apart.tail
    rw [List.infix_cons_iff, ← later, ← front, halves_cons]
    rcases halves_char c with ⟨half, here⟩ | ⟨high, low, isLow, here⟩
    · rw [here, List.singleton_append, List.infix_cons_iff]
    · have misses := not_prefix_low whole nonempty isLow (halves text)
      rw [here, List.cons_append, List.singleton_append, List.infix_cons_iff, List.infix_cons_iff]
      simp only [misses, false_or]

end ModifiedUtf8

open ModifiedUtf8

/-! Where whole names are replaced. -/

section Replacing

variable {source target text : List Char}

theorem ModifiedUtf8.Whole.apart_append (whole : Whole target) (apart : Apart text) :
    Apart (target ++ text) := by
  induction target with
  | nil => exact apart
  | cons c target ih =>
    refine List.isChain_cons.2 ⟨fun next _ both => ?_, ih fun d member => whole d (by simp [member])⟩
    simp [isEscapedHigh, whole c List.mem_cons_self] at both

theorem apart_replaceFrom (sourced : source ≠ []) (nonempty : target ≠ [])
    (whole : ModifiedUtf8.Whole target) (apart : Apart text) :
    Apart (replaceFrom source target 0 text) := by
  induction text using replaceFrom_induction sourced with
  | nil => exact .nil
  | found rest ih =>
    rw [replaceFrom_append sourced]
    exact whole.apart_append (ih apart.right_of_append)
  | kept c rest absent ih =>
    rw [replaceFrom_cons absent]
    obtain ⟨here, later⟩ := List.isChain_cons.1 apart
    refine List.isChain_cons.2 ⟨fun next first both => ?_, ih later⟩
    rcases mem_head?_replaceFrom nonempty first with old | new
    · exact here next old both
    · have plain := whole next new
      have low := (isEscapedLow_iff next).1 both.2
      rw [Bool.eq_false_iff, ne_eq, isEscape_iff] at plain
      omega

theorem replaceFrom_halves (whole : ModifiedUtf8.Whole source) (nonempty : source ≠ [])
    (apart : Apart text) :
    replaceFrom (halves source) (halves target) 0 (halves text) =
      halves (replaceFrom source target 0 text) := by
  induction text using replaceFrom_induction nonempty with
  | nil => rfl
  | found rest ih =>
    rw [halves_append, replaceFrom_append (halves_ne_nil nonempty), replaceFrom_append nonempty,
      halves_append, ih apart.right_of_append]
  | kept c rest absent ih =>
    have later := ih apart.tail
    have start := absent
    rw [← prefix_halves whole apart, halves_cons] at start
    rw [replaceFrom_cons absent, halves_cons c rest, halves_cons c (replaceFrom source target 0 rest)]
    rcases halves_char c with ⟨half, here⟩ | ⟨high, low, isLow, here⟩
    · rw [here, List.singleton_append] at start ⊢
      rw [replaceFrom_cons start, later, List.singleton_append]
    · rw [here, List.cons_append, List.singleton_append] at start ⊢
      rw [replaceFrom_cons start, replaceFrom_cons (not_prefix_low whole nonempty isLow _), later]
      rfl

def WholePair (pair : List Char × List Char) : Prop :=
  (pair.1 ≠ [] ∧ ModifiedUtf8.Whole pair.1) ∧ pair.2 ≠ [] ∧ ModifiedUtf8.Whole pair.2

instance (pair : List Char × List Char) : Decidable (WholePair pair) :=
  inferInstanceAs (Decidable ((_ ∧ _) ∧ _ ∧ _))

theorem substitute?_halves {pairs : List (List Char × List Char)}
    (whole : ∀ pair ∈ pairs, WholePair pair) (apart : Apart text) :
    substitute? (pairs.map (Prod.map halves halves)) (halves text) =
      (substitute? pairs text).map halves := by
  induction pairs generalizing text with
  | nil => rfl
  | cons pair pairs ih =>
    obtain ⟨source, target⟩ := pair
    obtain ⟨⟨⟨sourced, wholeSource⟩, nonempty, wholeTarget⟩, others⟩ := List.forall_mem_cons.1 whole
    have occurs : occursIn (halves source) (halves text) = occursIn source text := by
      rw [Bool.eq_iff_iff, occursIn_iff, occursIn_iff]
      exact infix_halves wholeSource sourced apart
    have next : replaceAll (halves source) (halves target) (halves text) =
        halves (replaceAll source target text) := by
      rw [replaceAll_of_ne_nil sourced, replaceAll_of_ne_nil (halves_ne_nil sourced)]
      exact replaceFrom_halves wholeSource sourced apart
    have still : Apart (replaceAll source target text) := by
      rw [replaceAll_of_ne_nil sourced]
      exact apart_replaceFrom sourced nonempty wholeTarget apart
    rw [List.map_cons, Prod.map_apply, substitute?, substitute?, occurs, next]
    split
    · dsimp only
      rw [ih others still]
      cases substitute? pairs (replaceAll source target text) <;> rfl
    · exact ih others apart

end Replacing

namespace Renaming

variable {table : Renaming}

def Whole (table : Renaming) : Prop := ∀ pair ∈ table.pairs, WholePair pair.chars

instance (table : Renaming) : Decidable table.Whole :=
  inferInstanceAs (Decidable (∀ pair ∈ table.pairs, WholePair pair.chars))

def unitTable (table : Renaming) : Renaming :=
  ⟨table.pairs.map fun pair => ⟨spelled (ClassRenaming.dotted pair.source),
    spelled (ClassRenaming.dotted pair.target)⟩⟩

theorem Whole.dottedChars (whole : table.Whole) {pair : NamePair} (member : pair ∈ table.pairs) :
    WholePair pair.dottedChars := by
  have name (text : String) (nonempty : text.toList ≠ []) (plain : ModifiedUtf8.Whole text.toList) :
      (ClassRenaming.dotted text).toList ≠ [] ∧
        ModifiedUtf8.Whole (ClassRenaming.dotted text).toList := by
    rw [ClassRenaming.dotted, String.toList_ofList]
    refine ⟨by simpa using nonempty, fun c inside => ?_⟩
    obtain ⟨d, before, rfl⟩ := List.mem_map.1 inside
    split
    · rfl
    · exact plain d before
  have here := whole pair member
  simp only [WholePair, NamePair.chars, NamePair.dottedChars] at here ⊢
  obtain ⟨source, target⟩ := here
  exact ⟨name pair.source source.1 source.2, name pair.target target.1 target.2⟩

theorem binary_unitTable (whole : table.Whole) {text : String} (storable : Storable text) :
    table.unitTable.binary (spelled text) = spelled (table.dotted text) := by
  have pairs : table.unitTable.pairs.map NamePair.chars =
      (table.pairs.map NamePair.dottedChars).map (Prod.map halves halves) := by
    rw [unitTable, List.map_map, List.map_map]
    apply List.map_congr_left
    intro pair _
    simp only [Function.comp_apply, NamePair.chars, NamePair.dottedChars, toList_spelled,
      Prod.map_apply]
  have all : ∀ pair ∈ table.pairs.map NamePair.dottedChars, WholePair pair := by
    intro chars listed
    obtain ⟨pair, member, rfl⟩ := List.mem_map.1 listed
    exact whole.dottedChars member
  have same := substitute?_halves all storable
  rw [← pairs, ← toList_spelled] at same
  rw [binary, binary?, same, dotted, dotted?]
  cases substitute? (table.pairs.map NamePair.dottedChars) text.toList with
  | none => rfl
  | some chars => exact (spelled_ofList chars).symm

end Renaming

end ClassRenaming
