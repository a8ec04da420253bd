import ClassRenaming.Proofs.Retelling

/-!
The units that a text is stored as. A text spelled by its units has a character for each of them, so
two such texts are equal when the units are. What a text decodes to does not tell a pair that is one
of the last characters of Unicode from a half of a pair by itself; where no pair is such a character
the units are those of the decoded text.
-/

namespace ClassRenaming

namespace ModifiedUtf8

def units (stored : Bytes) : List UInt16 :=
  ((takeUnits stored.length stored).getD []).map (·.1)

def textUnits (text : String) : List UInt16 := text.toList.flatMap charUnits

def spell (units : List UInt16) : String := String.ofList (units.map unitChar)

def spelled (text : String) : String := spell (textUnits text)

/-! Units and the characters that they become. -/

theorem toNat_ofNat {n : Nat} (valid : n.isValidChar) : (Char.ofNat n).toNat = n := by
  unfold Char.ofNat
  rw [dif_pos valid]
  rfl

theorem toUInt16_toNat (unit : UInt16) : unit.toNat.toUInt16 = unit := by
  apply UInt16.toNat_inj.1
  have bound := unit.toNat_lt
  simp only [Nat.toUInt16, UInt16.toNat_ofNat']
  omega

theorem charUnits_unitChar (unit : UInt16) : charUnits (unitChar unit) = [unit] := by
  have bound := unit.toNat_lt
  unfold unitChar
  split
  case isTrue half =>
    rw [Bool.or_eq_true, isHigh_iff, isLow_iff] at half
    have code : (Char.ofNat (escapeBase + (unit.toNat - 0xD800))).toNat =
        escapeBase + (unit.toNat - 0xD800) := by
      apply toNat_ofNat
      rw [escapeBase]
      exact .inr ⟨by omega, by omega⟩
    have escape : isEscape (Char.ofNat (escapeBase + (unit.toNat - 0xD800))) = true := by
      rw [isEscape_iff, code, escapeBase]
      omega
    have back : 0xD800 + (escapeBase + (unit.toNat - 0xD800) - escapeBase) = unit.toNat := by omega
    rw [charUnits, if_pos escape, code, back, toUInt16_toNat]
  case isFalse whole =>
    rw [Bool.or_eq_true, isHigh_iff, isLow_iff] at whole
    have code : (Char.ofNat unit.toNat).toNat = unit.toNat := by
      apply toNat_ofNat
      by_cases low : unit.toNat < 0xD800
      · exact .inl low
      · exact .inr ⟨by omega, by omega⟩
    have plain : ¬isEscape (Char.ofNat unit.toNat) = true := by
      rw [isEscape_iff, code]
      omega
    rw [charUnits, if_neg plain, code, if_pos bound, toUInt16_toNat]

theorem charUnits_pairChar {high low : UInt16} (isPair : isHigh high = true ∧ isLow low = true)
    (plain : isEscape (pairChar high low) = false) : charUnits (pairChar high low) = [high, low] := by
  obtain ⟨upper, lower⟩ := isPair
  rw [isHigh_iff] at upper
  rw [isLow_iff] at lower
  have code : (pairChar high low).toNat =
      0x10000 + (high.toNat - 0xD800) * 0x400 + (low.toNat - 0xDC00) :=
    toNat_ofNat (.inr ⟨by omega, by omega⟩)
  have first : 0xD800 + ((pairChar high low).toNat - 0x10000) / 0x400 = high.toNat := by
    rw [code]
    omega
  have second : 0xDC00 + ((pairChar high low).toNat - 0x10000) % 0x400 = low.toNat := by
    rw [code]
    omega
  have large : ¬(pairChar high low).toNat < 0x10000 := by
    rw [code]
    omega
  rw [charUnits, plain, if_neg Bool.false_ne_true, if_neg large, first, second, toUInt16_toNat,
    toUInt16_toNat]

theorem flatMap_unitsChars {units : List UInt16} (keep : pairsKeep units = true) :
    (unitsChars units).flatMap charUnits = units := by
  induction units using unitsChars.induct with
  | case1 => rfl
  | case2 unit => simp [unitsChars, charUnits_unitChar]
  | case3 first second rest isPair ih =>
    rw [pairsKeep, if_pos isPair, Bool.and_eq_true, Bool.not_eq_true'] at keep
    rw [unitsChars, if_pos isPair, List.flatMap_cons, ih keep.2,
      charUnits_pairChar (by simpa using isPair) keep.1]
    rfl
  | case4 first second rest apart ih =>
    rw [pairsKeep, if_neg apart] at keep
    rw [unitsChars, if_neg apart, List.flatMap_cons, ih keep, charUnits_unitChar]
    rfl

theorem textUnits_spell (units : List UInt16) : textUnits (spell units) = units := by
  rw [textUnits, spell, String.toList_ofList, List.flatMap_map]
  simp [charUnits_unitChar]

theorem recoded_eq (text : String) : recoded text = String.ofList (unitsChars (textUnits text)) := rfl

theorem recoded_spelled (text : String) : recoded (spelled text) = recoded text := by
  rw [recoded_eq, spelled, textUnits_spell, recoded_eq]

theorem spelled_eq_self {text : String} (small : ∀ c ∈ text.toList, c.toNat < 0x10000) :
    spelled text = text := by
  have chars : ∀ chars : List Char, (∀ c ∈ chars, c.toNat < 0x10000) →
      (chars.flatMap charUnits).map unitChar = chars := by
    intro chars small
    induction chars with
    | nil => rfl
    | cons c chars ih =>
      rw [List.forall_mem_cons] at small
      have form := units_charUnits c
      rw [List.flatMap_cons, List.map_append, ih small.2]
      generalize charUnits c = units at form ⊢
      cases form with
      | half unit escape =>
        rw [isEscape_iff] at escape
        omega
      | one unit same whole => simp [unitChar, whole, same]
      | pair high low plain isPair => omega
  rw [spelled, spell, textUnits, chars _ small, String.ofList_toList]

theorem text_of_decode {stored : Bytes} {decoded : Decoded} (done : decode stored = .ok decoded) :
    decoded.text = String.ofList (unitsChars (units stored)) := by
  unfold decode at done
  unfold units
  split at done
  · cases done
  case h_2 marked taken =>
    cases done
    rw [taken]
    rfl

theorem units_of_decode {stored : Bytes} {decoded : Decoded} (done : decode stored = .ok decoded)
    (keep : pairsKeep (units stored) = true) : units stored = textUnits decoded.text := by
  rw [text_of_decode done, textUnits, String.toList_ofList, flatMap_unitsChars keep]

theorem units_encode (text : String) : units (encode text) = textUnits text := by
  have taken := takeUnits_flatMap (length_le_flatMap_unitBytes (textUnits text))
  have same : encode text = (textUnits text).flatMap unitBytes := encode_eq text
  rw [units, same, taken, Option.getD_some, List.map_map]
  exact List.map_id _

end ModifiedUtf8

theorem keepsKnown_spelled : KeepsKnown ModifiedUtf8.spelled := by
  refine ⟨fun name member => ModifiedUtf8.spelled_eq_self (known_small member), fun name member => ?_⟩
  have joins := ModifiedUtf8.joins_recoded name
  have same : ModifiedUtf8.recoded name = ModifiedUtf8.spelled name := by
    rw [← ModifiedUtf8.recoded_spelled, ModifiedUtf8.recoded_eq_self (known_storable _ member)]
  rw [same] at joins
  exact (String.toList_inj.1 (joins.eq_of_small (known_small member))).symm

namespace PoolEntry

def byUnits : PoolEntry → PoolEntry
  | utf8 _ stored exact => utf8 (ModifiedUtf8.spell (ModifiedUtf8.units stored)) stored exact
  | other => other

def pairsKeep : PoolEntry → Bool
  | utf8 _ stored _ => ModifiedUtf8.pairsKeep (ModifiedUtf8.units stored)
  | _ => true

def TellsUnits : PoolEntry → Prop
  | utf8 text stored _ => ModifiedUtf8.units stored = ModifiedUtf8.textUnits text
  | _ => True

theorem IsOwn.tellsUnits {entry : PoolEntry} (own : entry.IsOwn)
    (keep : entry.pairsKeep = true) :
    entry.TellsUnits := by
  cases entry with
  | utf8 text stored exact => exact ModifiedUtf8.units_of_decode own keep
  | _ => trivial

theorem TellsUnits.retold {entry : PoolEntry} (tells : entry.TellsUnits) :
    entry.Retold ModifiedUtf8.spelled entry.byUnits := by
  cases entry with
  | utf8 text stored exact =>
    refine ⟨exact, ?_⟩
    rw [byUnits, ModifiedUtf8.spelled, tells]
  | _ => rfl

theorem TellsUnits.retold_reread {entry : PoolEntry} (tells : entry.TellsUnits) :
    entry.Retold ModifiedUtf8.spelled entry.reread.byUnits := by
  cases entry with
  | utf8 text stored exact =>
    rw [reread]
    split
    case h_1 decoded done =>
      refine ⟨decoded.exact, ?_⟩
      rw [byUnits, ModifiedUtf8.spelled, tells]
    case h_2 => exact tells.retold
  | _ => rfl

end PoolEntry

namespace ConstantPool

variable {pool : ConstantPool}

theorem retold_byUnits (tells : ∀ entry ∈ pool.entries.toList, entry.TellsUnits) :
    pool.Retold ModifiedUtf8.spelled (pool.viewed PoolEntry.byUnits) :=
  retold_viewed fun entry member => (tells entry member).retold

theorem retold_reread_byUnits (tells : ∀ entry ∈ pool.entries.toList, entry.TellsUnits) :
    pool.Retold ModifiedUtf8.spelled (pool.reread.viewed PoolEntry.byUnits) := by
  have both : pool.reread.viewed PoolEntry.byUnits =
      pool.viewed (PoolEntry.byUnits ∘ PoolEntry.reread) := by
    simp only [reread, viewed, Array.map_map]
  rw [both]
  exact retold_viewed fun entry member => (tells entry member).retold_reread

end ConstantPool

end ClassRenaming
