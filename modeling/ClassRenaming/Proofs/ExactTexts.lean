import ClassRenaming.Proofs.RenamedUnits

/-!
When a text is exact. Bytes are read as units in their shortest form just when those units are written
as the bytes, and a pair that is one of the last characters of Unicode is written as a single unit, so
it is never written as it was read: what one place loses no other place makes up for.
-/

namespace ClassRenaming.ModifiedUtf8

/-! Bytes of the three forms. -/

theorem lt_of_single : ∀ b : UInt8, (b &&& 0x80 == 0) = true → b.toNat < 128 :=
  forall_byte (by decide +kernel)

theorem eq_of_double : ∀ b : UInt8, (b &&& 0xE0 == 0xC0) = true →
    b = 0xC0 ||| (b &&& 0x1F) ∧ (b &&& 0x1F).toNat < 32 :=
  forall_byte (by decide +kernel)

theorem eq_of_triple : ∀ b : UInt8, (b &&& 0xF0 == 0xE0) = true →
    b = 0xE0 ||| (b &&& 0x0F) ∧ (b &&& 0x0F).toNat < 16 :=
  forall_byte (by decide +kernel)

theorem eq_of_continuation : ∀ b : UInt8, isContinuation b = true →
    b = 0x80 ||| (b &&& 0x3F) ∧ (b &&& 0x3F).toNat < 64 :=
  forall_byte (by decide +kernel)

/-! Units whose bits are those of bytes. -/

section Forms

variable {a b c : UInt8} {unit : UInt16}

theorem unitBytes_single (same : unit.toNat = a.toNat) (nonzero : a ≠ 0) (small : a.toNat < 128) :
    unitBytes unit = [a] := by
  have nonzero : unit ≠ 0 := by
    rintro rfl
    exact nonzero (UInt8.toNat_inj.1 same.symm)
  have below : unit < 0x80 := UInt16.lt_iff_toNat_lt.2 (same ▸ small)
  rw [unitBytes, if_pos ⟨nonzero, below⟩, toUInt8_of_lt same, UInt8.ofNat_toNat]

theorem unitBytes_double (same : unit.toNat = a.toNat * 64 + b.toNat) (first : a.toNat < 32)
    (second : b.toNat < 64) (shortest : unit = 0 ∨ 0x80 ≤ unit) :
    unitBytes unit = [0xC0 ||| a, 0x80 ||| b] := by
  have shift : (unit >>> 6).toNat = a.toNat := by
    rw [toNat_shift_six]
    omega
  have low : unit.toNat % 64 = b.toNat := by omega
  have large : ¬(unit ≠ 0 ∧ unit < 0x80) := by
    rintro ⟨nonzero, below⟩
    rcases shortest with zero | above
    · exact nonzero zero
    · exact UInt16.not_lt.2 above below
  have below : unit.toNat < 0x800 := by omega
  rw [unitBytes, if_neg large, if_pos (UInt16.lt_iff_toNat_lt.2 below), toUInt8_of_lt shift,
    continuation, low_bits, low, UInt8.ofNat_toNat, UInt8.ofNat_toNat]

theorem unitBytes_triple (same : unit.toNat = a.toNat * 4096 + b.toNat * 64 + c.toNat)
    (second : b.toNat < 64) (third : c.toNat < 64) (shortest : 0x800 ≤ unit) :
    unitBytes unit = [0xE0 ||| a, 0x80 ||| b, 0x80 ||| c] := by
  have shift : (unit >>> 12).toNat = a.toNat := by
    rw [toNat_shift_twelve]
    omega
  have middle : (unit >>> 6).toNat % 64 = b.toNat := by
    rw [toNat_shift_six]
    omega
  have low : unit.toNat % 64 = c.toNat := by omega
  have above : 0x800 ≤ unit.toNat := UInt16.le_iff_toNat_le.1 shortest
  have large : ¬(unit ≠ 0 ∧ unit < 0x80) := by
    rintro ⟨-, below⟩
    have below : unit.toNat < 0x80 := UInt16.lt_iff_toNat_lt.1 below
    omega
  rw [unitBytes, if_neg large, if_neg (UInt16.not_lt.2 shortest), toUInt8_of_lt shift, continuation,
    continuation, low_bits, low_bits, middle, low, UInt8.ofNat_toNat, UInt8.ofNat_toNat,
    UInt8.ofNat_toNat]

end Forms

/-! What is read in its shortest form is written as it was read. -/

theorem bytes_of_takeUnit {bytes rest : Bytes} {unit : UInt16}
    (taken : takeUnit bytes = some ((unit, true), rest)) : bytes = unitBytes unit ++ rest := by
  unfold takeUnit at taken
  split at taken
  · cases taken
  case h_2 a behind =>
    split at taken
    case isTrue single =>
      simp only [Option.some.injEq, Prod.mk.injEq, bne_iff_ne, ne_eq] at taken
      obtain ⟨⟨rfl, nonzero⟩, rfl⟩ := taken
      rw [unitBytes_single (UInt8.toNat_toUInt16 a) nonzero (lt_of_single a single)]
      rfl
    case isFalse =>
      split at taken
      case isTrue double =>
        split at taken
        · split at taken
          case isTrue next =>
            simp only [Option.some.injEq, Prod.mk.injEq, Bool.or_eq_true, beq_iff_eq,
              decide_eq_true_eq] at taken
            obtain ⟨⟨rfl, shortest⟩, rfl⟩ := taken
            obtain ⟨first, low⟩ := eq_of_double a double
            obtain ⟨second, small⟩ := eq_of_continuation _ next
            rw [unitBytes_double (toNat_double low small) low small shortest, ← first, ← second]
            rfl
          case isFalse => cases taken
        · cases taken
      case isFalse =>
        split at taken
        case isTrue triple =>
          split at taken
          · split at taken
            case isTrue next =>
              simp only [Option.some.injEq, Prod.mk.injEq, decide_eq_true_eq] at taken
              obtain ⟨⟨rfl, shortest⟩, rfl⟩ := taken
              rw [Bool.and_eq_true] at next
              obtain ⟨first, low⟩ := eq_of_triple a triple
              obtain ⟨second, middle⟩ := eq_of_continuation _ next.1
              obtain ⟨third, small⟩ := eq_of_continuation _ next.2
              rw [unitBytes_triple (toNat_triple low middle small) middle small shortest, ← first,
                ← second, ← third]
              rfl
            case isFalse => cases taken
          · cases taken
        case isFalse => cases taken

theorem bytes_of_takeUnits {bytes : Bytes} {steps : Nat} {marked : List (UInt16 × Bool)}
    (taken : takeUnits steps bytes = some marked) (shortest : marked.all (·.2) = true) :
    bytes = (marked.map (·.1)).flatMap unitBytes := by
  induction steps, bytes using takeUnits.induct generalizing marked with
  | case1 =>
    simp only [takeUnits, Option.some.injEq] at taken
    rw [← taken]
    rfl
  | case2 => cases taken
  | case3 steps bytes nonempty first rest here ih =>
    simp only [takeUnits, here, Option.map_eq_some_iff] at taken
    obtain ⟨others, behind, rfl⟩ := taken
    rw [List.all_cons, Bool.and_eq_true] at shortest
    obtain ⟨unit, marked⟩ := first
    obtain ⟨rfl, later⟩ := shortest
    rw [bytes_of_takeUnit here, ih behind later]
    rfl
  | case4 steps bytes nonempty ends =>
    simp only [takeUnits, ends] at taken
    cases taken

/-! Text that is written as the units that it was read from. -/

theorem length_charUnits_le (c : Char) : (charUnits c).length ≤ 2 := by
  have form := units_charUnits c
  generalize charUnits c = units at form ⊢
  cases form <;> simp

theorem length_flatMap_unitsChars_le (units : List UInt16) :
    ((unitsChars units).flatMap charUnits).length ≤ units.length := by
  induction units using unitsChars.induct with
  | case1 => simp [unitsChars]
  | case2 unit => simp [unitsChars, charUnits_unitChar]
  | case3 first second rest isPair ih =>
    have pair := length_charUnits_le (pairChar first second)
    rw [unitsChars, if_pos isPair, List.flatMap_cons, List.length_append]
    simp only [List.length_cons]
    omega
  | case4 first second rest apart ih =>
    rw [unitsChars, if_neg apart, List.flatMap_cons, charUnits_unitChar, List.length_append]
    simp only [List.length_cons, List.length_nil] at ih ⊢
    omega

theorem pairsKeep_of_flatMap_unitsChars {units : List UInt16}
    (same : (unitsChars units).flatMap charUnits = units) : pairsKeep units = true := by
  induction units using unitsChars.induct with
  | case1 | case2 => rfl
  | case3 first second rest isPair ih =>
    rw [unitsChars, if_pos isPair, List.flatMap_cons] at same
    rw [pairsKeep, if_pos isPair, Bool.and_eq_true, Bool.not_eq_true']
    cases escape : isEscape (pairChar first second) with
    | false =>
      rw [charUnits_pairChar (by simpa using isPair) escape] at same
      exact ⟨rfl, ih (by simpa using same)⟩
    | true =>
      obtain ⟨unit, alone, -⟩ := charUnits_of_escape escape
      have shorter := length_flatMap_unitsChars_le rest
      have lengths := congrArg List.length same
      rw [alone, List.length_append] at lengths
      simp only [List.length_cons, List.length_nil] at lengths
      omega
  | case4 first second rest apart ih =>
    rw [unitsChars, if_neg apart, List.flatMap_cons, charUnits_unitChar] at same
    rw [pairsKeep, if_neg apart]
    exact ih (by simpa using same)

/-- A text is exact just when it is written as the bytes that it was read from. -/
theorem exact_iff_encode_eq {bytes : Bytes} {decoded : Decoded} (done : decode bytes = .ok decoded) :
    decoded.exact = true ↔ encode decoded.text = bytes := by
  unfold decode at done
  split at done
  · cases done
  case h_2 marked taken =>
    cases done
    simp only [Bool.and_eq_true]
    rw [encode_eq, String.toList_ofList]
    constructor
    · rintro ⟨shortest, keep⟩
      rw [flatMap_unitsChars keep]
      exact (bytes_of_takeUnits taken shortest).symm
    · intro written
      have enough := length_le_flatMap_unitBytes ((unitsChars (marked.map (·.1))).flatMap charUnits)
      have again := takeUnits_flatMap enough
      rw [written, taken, Option.some.injEq] at again
      have same := congrArg (List.map (·.1)) again
      simp only [List.map_map, Function.comp_def, List.map_id'] at same
      refine ⟨?_, pairsKeep_of_flatMap_unitsChars same.symm⟩
      rw [again]
      simp

/-- The last character of Unicode as a pair, which is written as a low half. -/
theorem lastCharacter_notExact :
    decode [0xED, 0xAF, 0xBF, 0xED, 0xBF, 0xBF] = .ok ⟨String.singleton (Char.ofNat 0x10FFFF), false⟩ ∧
      encode (String.singleton (Char.ofNat 0x10FFFF)) ≠ [0xED, 0xAF, 0xBF, 0xED, 0xBF, 0xBF] := by
  have done : decode [0xED, 0xAF, 0xBF, 0xED, 0xBF, 0xBF] =
      .ok ⟨String.singleton (Char.ofNat 0x10FFFF), false⟩ := by
    decide +kernel
  refine ⟨done, fun same => ?_⟩
  have exact := (exact_iff_encode_eq done).2 same
  cases exact

/-! Text that comes back. -/

theorem storable_iff {text : String} : Storable text ↔
    text.toList.IsChain fun c next => ¬((0x10F800 ≤ c.toNat ∧ c.toNat < 0x10FC00) ∧
      0x10FC00 ≤ next.toNat ∧ next.toNat ≤ 0x10FFFF) := by
  have last (c : Char) : c.toNat ≤ 0x10FFFF := by
    have bounds := toNat_char_bounds c
    omega
  simp only [Storable, isEscapedHigh_iff, isEscapedLow_iff, last, and_true]

/-- What a text is stored as is read, as the text itself just when no character that stands for a high
half is right in front of one that stands for a low half. -/
theorem comesBack_iff (text : String) :
    ∃ decoded, decode (encode text) = .ok decoded ∧
      (decoded.text = text ∧ decoded.exact = true ↔
        text.toList.IsChain fun c next => ¬((0x10F800 ≤ c.toNat ∧ c.toNat < 0x10FC00) ∧
          0x10FC00 ≤ next.toNat ∧ next.toNat ≤ 0x10FFFF)) := by
  refine ⟨_, decode_encode text, ?_⟩
  rw [← storable_iff]
  constructor
  · rintro ⟨same, keep⟩
    have back : recoded text = text := same
    rw [Storable, ← back, recoded, String.toList_ofList]
    exact apart_unitsChars keep
  · intro storable
    exact ⟨recoded_eq_self storable, (unitsChars_flatMap storable).2⟩

end ClassRenaming.ModifiedUtf8
