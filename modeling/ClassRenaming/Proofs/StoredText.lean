import ClassRenaming.Text.ModifiedUtf8
import Mathlib.Data.List.Chain

/-!
A text is decoded from the bytes that it is stored as, unless it holds two characters side by side
that stand for the halves of a pair: those come back as the one character of the pair.
-/

namespace ClassRenaming

namespace ModifiedUtf8

def isEscapedHigh (c : Char) : Bool := isEscape c && c.toNat < escapeBase + 0x400

def isEscapedLow (c : Char) : Bool := escapeBase + 0x400 ≤ c.toNat

/-- No character that stands for a high half is right in front of one that stands for a low half. -/
def Storable (text : String) : Prop :=
  text.toList.IsChain fun c next => ¬(isEscapedHigh c = true ∧ isEscapedLow next = true)

instance (text : String) : Decidable (Storable text) :=
  inferInstanceAs (Decidable (List.IsChain _ _))

theorem low_bits (unit : UInt16) : (unit &&& 0x3F).toUInt8 = UInt8.ofNat (unit.toNat % 64) := by
  apply UInt8.toNat_inj.1
  have mask : UInt16.toNat 0x3F = 2 ^ 6 - 1 := rfl
  rw [UInt16.toNat_toUInt8, UInt16.toNat_and, mask, Nat.and_two_pow_sub_one_eq_mod,
    UInt8.toNat_ofNat']

theorem continuation_of_lt : ∀ n < 64, isContinuation (0x80 ||| UInt8.ofNat n) = true ∧
    (0x80 ||| UInt8.ofNat n) &&& 0x3F = UInt8.ofNat n := by
  decide +kernel

theorem isContinuation_continuation (unit : UInt16) : isContinuation (continuation unit) = true := by
  rw [continuation, low_bits]
  exact (continuation_of_lt (unit.toNat % 64) (by omega)).1

theorem toNat_continuation (unit : UInt16) :
    (continuation unit &&& 0x3F).toNat = unit.toNat % 64 := by
  rw [continuation, low_bits, (continuation_of_lt (unit.toNat % 64) (by omega)).2,
    UInt8.toNat_ofNat']
  omega

theorem toUInt8_of_lt {unit : UInt16} {n : Nat} (same : unit.toNat = n) :
    unit.toUInt8 = UInt8.ofNat n := by
  apply UInt8.toNat_inj.1
  rw [UInt16.toNat_toUInt8, UInt8.toNat_ofNat', same]

theorem single_of_lt : ∀ n < 128, (UInt8.ofNat n &&& 0x80 == 0) = true := by
  decide +kernel

theorem double_of_lt : ∀ n < 32, ((0xC0 ||| UInt8.ofNat n) &&& 0x80 == 0) = false ∧
    ((0xC0 ||| UInt8.ofNat n) &&& 0xE0 == 0xC0) = true ∧
      (0xC0 ||| UInt8.ofNat n) &&& 0x1F = UInt8.ofNat n := by
  decide +kernel

theorem triple_of_lt : ∀ n < 16, ((0xE0 ||| UInt8.ofNat n) &&& 0x80 == 0) = false ∧
    ((0xE0 ||| UInt8.ofNat n) &&& 0xE0 == 0xC0) = false ∧
      ((0xE0 ||| UInt8.ofNat n) &&& 0xF0 == 0xE0) = true ∧
        (0xE0 ||| UInt8.ofNat n) &&& 0x0F = UInt8.ofNat n := by
  decide +kernel

/-! Units that are put together of the bits of bytes. -/

theorem toNat_shift_six (unit : UInt16) : (unit >>> 6).toNat = unit.toNat / 64 := by
  have six : UInt16.toNat 6 % 16 = 6 := rfl
  rw [UInt16.toNat_shiftRight, six, Nat.shiftRight_eq_div_pow]

theorem toNat_shift_twelve (unit : UInt16) : (unit >>> 12).toNat = unit.toNat / 4096 := by
  have twelve : UInt16.toNat 12 % 16 = 12 := rfl
  rw [UInt16.toNat_shiftRight, twelve, Nat.shiftRight_eq_div_pow]

section Forms

variable {a b c : UInt8}

theorem toNat_double (first : a.toNat < 32) (second : b.toNat < 64) :
    (a.toUInt16 <<< 6 ||| b.toUInt16).toNat = a.toNat * 64 + b.toNat := by
  have six : UInt16.toNat 6 % 16 = 6 := rfl
  rw [UInt16.toNat_or, UInt16.toNat_shiftLeft, six, UInt8.toNat_toUInt16, UInt8.toNat_toUInt16,
    Nat.shiftLeft_eq, Nat.mod_eq_of_lt (by omega), Nat.mul_comm,
    ← Nat.two_pow_add_eq_or_of_lt (by omega)]

theorem toNat_triple (first : a.toNat < 16) (second : b.toNat < 64) (third : c.toNat < 64) :
    (a.toUInt16 <<< 12 ||| b.toUInt16 <<< 6 ||| c.toUInt16).toNat =
      a.toNat * 4096 + b.toNat * 64 + c.toNat := by
  have six : UInt16.toNat 6 % 16 = 6 := rfl
  have twelve : UInt16.toNat 12 % 16 = 12 := rfl
  rw [UInt16.toNat_or, UInt16.toNat_or, UInt16.toNat_shiftLeft, UInt16.toNat_shiftLeft, six, twelve,
    UInt8.toNat_toUInt16, UInt8.toNat_toUInt16, UInt8.toNat_toUInt16, Nat.shiftLeft_eq,
    Nat.shiftLeft_eq, Nat.mod_eq_of_lt (by omega), Nat.mod_eq_of_lt (b := 2 ^ 16) (by omega),
    Nat.or_assoc, Nat.mul_comm _ (2 ^ 6), ← Nat.two_pow_add_eq_or_of_lt (by omega),
    Nat.mul_comm _ (2 ^ 12), ← Nat.two_pow_add_eq_or_of_lt (by omega)]
  omega

end Forms

section Units

variable {unit : UInt16}

theorem takeUnit_single (nonzero : unit ≠ 0) (small : unit.toNat < 128) (rest : Bytes) :
    takeUnit (unit.toUInt8 :: rest) = some ((unit, true), rest) := by
  have back : unit.toUInt8.toUInt16 = unit := by
    apply UInt16.toNat_inj.1
    rw [UInt8.toNat_toUInt16, UInt16.toNat_toUInt8]
    omega
  have nonzero : unit.toUInt8 ≠ 0 := by
    intro zero
    rw [zero] at back
    exact nonzero back.symm
  have low := single_of_lt unit.toNat small
  rw [← toUInt8_of_lt rfl] at low
  simp [takeUnit, low, back, nonzero]

theorem takeUnit_double (shortest : unit = 0 ∨ 0x80 ≤ unit) (small : unit.toNat < 2048)
    (rest : Bytes) :
    takeUnit ([(0xC0 : UInt8) ||| (unit >>> 6).toUInt8, continuation unit] ++ rest) =
      some ((unit, true), rest) := by
  obtain ⟨first, second, third⟩ := double_of_lt (unit.toNat / 64) (by omega)
  have high : (UInt8.ofNat (unit.toNat / 64)).toNat = unit.toNat / 64 := by
    rw [UInt8.toNat_ofNat']
    omega
  have low := toNat_continuation unit
  have back : (UInt8.ofNat (unit.toNat / 64)).toUInt16 <<< 6 |||
      (continuation unit &&& 0x3F).toUInt16 = unit := by
    apply UInt16.toNat_inj.1
    rw [toNat_double (by omega) (by omega)]
    omega
  have shortest : (unit == 0 || decide (unit ≥ 0x80)) = true := by simpa using shortest
  simp only [toUInt8_of_lt (toNat_shift_six unit), List.cons_append, List.nil_append, takeUnit,
    first, second, third, isContinuation_continuation, back, shortest, if_true,
    Bool.false_eq_true, if_false]

theorem takeUnit_triple (shortest : 0x800 ≤ unit) (rest : Bytes) :
    takeUnit ([(0xE0 : UInt8) ||| (unit >>> 12).toUInt8, continuation (unit >>> 6),
      continuation unit] ++ rest) = some ((unit, true), rest) := by
  have bound := unit.toNat_lt
  obtain ⟨first, second, third, fourth⟩ := triple_of_lt (unit.toNat / 4096) (by omega)
  have high : (UInt8.ofNat (unit.toNat / 4096)).toNat = unit.toNat / 4096 := by
    rw [UInt8.toNat_ofNat']
    omega
  have middle := toNat_continuation (unit >>> 6)
  rw [toNat_shift_six] at middle
  have low := toNat_continuation unit
  have back : (UInt8.ofNat (unit.toNat / 4096)).toUInt16 <<< 12 |||
      (continuation (unit >>> 6) &&& 0x3F).toUInt16 <<< 6 |||
        (continuation unit &&& 0x3F).toUInt16 = unit := by
    apply UInt16.toNat_inj.1
    rw [toNat_triple (by omega) (by omega) (by omega)]
    omega
  have shortest : decide (unit ≥ 0x800) = true := decide_eq_true shortest
  simp only [toUInt8_of_lt (toNat_shift_twelve unit), List.cons_append, List.nil_append, takeUnit,
    first, second, third, fourth, isContinuation_continuation, back, shortest, if_true,
    Bool.false_eq_true, if_false, Bool.and_self]

end Units

theorem takeUnit_unitBytes (unit : UInt16) (rest : Bytes) :
    takeUnit (unitBytes unit ++ rest) = some ((unit, true), rest) := by
  simp only [unitBytes]
  split
  case isTrue small =>
    exact takeUnit_single small.1 (UInt16.lt_iff_toNat_lt.1 small.2) rest
  case isFalse other =>
    split
    case isTrue small =>
      have shortest : unit = 0 ∨ 0x80 ≤ unit := by
        by_cases zero : unit = 0
        · exact .inl zero
        · exact .inr (UInt16.not_lt.1 fun below => other ⟨zero, below⟩)
      exact takeUnit_double shortest (UInt16.lt_iff_toNat_lt.1 small) rest
    case isFalse large => exact takeUnit_triple (UInt16.not_lt.1 large) rest

theorem length_unitBytes_pos (unit : UInt16) : 0 < (unitBytes unit).length := by
  simp only [unitBytes]
  split
  · simp
  · split <;> simp

theorem length_le_flatMap_unitBytes (units : List UInt16) :
    units.length ≤ (units.flatMap unitBytes).length := by
  induction units with
  | nil => simp
  | cons unit units ih =>
    have positive := length_unitBytes_pos unit
    simp only [List.flatMap_cons, List.length_append, List.length_cons]
    omega

theorem takeUnits_flatMap {units : List UInt16} {steps : Nat} (enough : units.length ≤ steps) :
    takeUnits steps (units.flatMap unitBytes) = some (units.map (·, true)) := by
  induction units generalizing steps with
  | nil => cases steps <;> rfl
  | cons unit units ih =>
    cases steps with
    | zero => simp at enough
    | succ steps =>
      have later := ih (Nat.le_of_succ_le_succ enough)
      have taken := takeUnit_unitBytes unit (units.flatMap unitBytes)
      cases here : unitBytes unit ++ units.flatMap unitBytes with
      | nil =>
        have positive := length_unitBytes_pos unit
        have empty := congrArg List.length here
        simp only [List.length_append, List.length_nil] at empty
        omega
      | cons b bytes =>
        rw [here] at taken
        simp [List.flatMap_cons, here, takeUnits, taken, later]

theorem isHigh_iff (unit : UInt16) :
    isHigh unit = true ↔ 0xD800 ≤ unit.toNat ∧ unit.toNat < 0xDC00 := by
  simp [isHigh, UInt16.le_iff_toNat_le, UInt16.lt_iff_toNat_lt]

theorem isLow_iff (unit : UInt16) :
    isLow unit = true ↔ 0xDC00 ≤ unit.toNat ∧ unit.toNat < 0xE000 := by
  simp [isLow, UInt16.le_iff_toNat_le, UInt16.lt_iff_toNat_lt]

theorem isEscape_iff (c : Char) : isEscape c = true ↔ 0x10F800 ≤ c.toNat := by
  rw [isEscape, decide_eq_true_iff, escapeBase]

theorem isEscapedHigh_iff (c : Char) :
    isEscapedHigh c = true ↔ 0x10F800 ≤ c.toNat ∧ c.toNat < 0x10FC00 := by
  have base : escapeBase + 0x400 = 0x10FC00 := rfl
  rw [isEscapedHigh, Bool.and_eq_true, isEscape_iff, decide_eq_true_iff, base]

theorem isEscapedLow_iff (c : Char) : isEscapedLow c = true ↔ 0x10FC00 ≤ c.toNat := by
  have base : escapeBase + 0x400 = 0x10FC00 := rfl
  have low : isEscapedLow c = true ↔ escapeBase + 0x400 ≤ c.toNat := decide_eq_true_iff
  rw [base] at low
  exact low

theorem toNat_char_bounds (c : Char) :
    c.toNat < 0xD800 ∨ 0xDFFF < c.toNat ∧ c.toNat < 0x110000 := c.valid

inductive Units (c : Char) : List UInt16 → Prop
  | half (unit : UInt16) (escape : isEscape c = true)
      (same : unit.toNat = 0xD800 + (c.toNat - escapeBase)) : Units c [unit]
  | one (unit : UInt16) (same : unit.toNat = c.toNat)
      (whole : isHigh unit = false ∧ isLow unit = false) : Units c [unit]
  | pair (high low : UInt16) (plain : isEscape c = false) (isPair : 0x10000 ≤ c.toNat)
      (upper : high.toNat = 0xD800 + (c.toNat - 0x10000) / 0x400)
      (lower : low.toNat = 0xDC00 + (c.toNat - 0x10000) % 0x400) : Units c [high, low]

theorem units_charUnits (c : Char) : Units c (charUnits c) := by
  have bounds := toNat_char_bounds c
  simp only [charUnits]
  split
  case isTrue escape =>
    refine .half _ escape ?_
    rw [isEscape_iff] at escape
    simp only [Nat.toUInt16, UInt16.toNat_ofNat', escapeBase]
    omega
  case isFalse plain =>
    rw [Bool.not_eq_true] at plain
    split
    case isTrue small =>
      have same : c.toNat.toUInt16.toNat = c.toNat := by
        simp only [Nat.toUInt16, UInt16.toNat_ofNat']
        omega
      refine .one _ same ⟨?_, ?_⟩
      · rw [Bool.eq_false_iff, ne_eq, isHigh_iff, same]
        omega
      · rw [Bool.eq_false_iff, ne_eq, isLow_iff, same]
        omega
    case isFalse large =>
      refine .pair _ _ plain (Nat.not_lt.1 large) ?_ ?_
      · simp only [Nat.toUInt16, UInt16.toNat_ofNat']
        omega
      · simp only [Nat.toUInt16, UInt16.toNat_ofNat']
        omega

theorem unitsChars_cons {unit : UInt16} {units : List UInt16}
    (apart : ∀ next ∈ units.head?, ¬(isHigh unit = true ∧ isLow next = true)) :
    unitsChars (unit :: units) = unitChar unit :: unitsChars units ∧
      pairsKeep (unit :: units) = pairsKeep units := by
  cases units with
  | nil => exact ⟨rfl, rfl⟩
  | cons next units =>
    have apart := apart next rfl
    rw [← Bool.and_eq_true, Bool.not_eq_true] at apart
    simp [unitsChars, pairsKeep, apart]

theorem escapedLow_of_head {c : Char} {rest : List UInt16} {unit : UInt16}
    (first : unit ∈ (charUnits c ++ rest).head?) (low : isLow unit = true) :
    isEscapedLow c = true := by
  rw [isLow_iff] at low
  generalize here : charUnits c = units at first
  have form := units_charUnits c
  rw [here] at form
  cases form with
  | half found escape same =>
    obtain rfl : found = unit := by simpa using first
    rw [isEscape_iff] at escape
    rw [isEscapedLow_iff]
    rw [escapeBase] at same
    omega
  | one found same whole =>
    obtain rfl : found = unit := by simpa using first
    rw [(isLow_iff found).2 low] at whole
    cases whole.2
  | pair high _ _ isPair upper _ =>
    obtain rfl : high = unit := by simpa using first
    have bounds := toNat_char_bounds c
    omega

theorem unitChar_half {c : Char} {unit : UInt16} (escape : isEscape c = true)
    (same : unit.toNat = 0xD800 + (c.toNat - escapeBase)) : unitChar unit = c := by
  have bounds := toNat_char_bounds c
  have inside : (isHigh unit || isLow unit) = true := by
    rw [Bool.or_eq_true, isHigh_iff, isLow_iff, same, escapeBase]
    omega
  have back : escapeBase + (unit.toNat - 0xD800) = c.toNat := by
    rw [isEscape_iff] at escape
    rw [escapeBase] at same ⊢
    omega
  simp [unitChar, inside, back]

theorem pairChar_of_units {c : Char} {high low : UInt16} (isPair : 0x10000 ≤ c.toNat)
    (upper : high.toNat = 0xD800 + (c.toNat - 0x10000) / 0x400)
    (lower : low.toNat = 0xDC00 + (c.toNat - 0x10000) % 0x400) : pairChar high low = c := by
  have back : 0x10000 + (high.toNat - 0xD800) * 0x400 + (low.toNat - 0xDC00) = c.toNat := by omega
  simp [pairChar, back]

theorem halves_of_units {c : Char} {high low : UInt16}
    (upper : high.toNat = 0xD800 + (c.toNat - 0x10000) / 0x400)
    (lower : low.toNat = 0xDC00 + (c.toNat - 0x10000) % 0x400) : (isHigh high && isLow low) = true := by
  have bounds := toNat_char_bounds c
  rw [Bool.and_eq_true, isHigh_iff, isLow_iff]
  omega

theorem unitsChars_flatMap {chars : List Char}
    (apart : chars.IsChain fun c next => ¬(isEscapedHigh c = true ∧ isEscapedLow next = true)) :
    unitsChars (chars.flatMap charUnits) = chars ∧
      pairsKeep (chars.flatMap charUnits) = true := by
  induction chars with
  | nil => exact ⟨rfl, rfl⟩
  | cons c chars ih =>
    obtain ⟨text, keep⟩ := ih apart.tail
    rw [List.flatMap_cons]
    generalize here : charUnits c = units
    have form := units_charUnits c
    rw [here] at form
    cases form with
    | half unit escape same =>
      have alone : ∀ next ∈ (chars.flatMap charUnits).head?,
          ¬(isHigh unit = true ∧ isLow next = true) := by
        rintro next first ⟨high, low⟩
        cases chars with
        | nil => simp at first
        | cons d chars =>
          rw [List.flatMap_cons] at first
          refine (List.isChain_cons_cons.1 apart).1 ⟨?_, escapedLow_of_head first low⟩
          rw [isHigh_iff, same, escapeBase] at high
          rw [isEscape_iff] at escape
          rw [isEscapedHigh_iff]
          omega
      obtain ⟨first, second⟩ := unitsChars_cons alone
      rw [List.singleton_append, first, second, text, unitChar_half escape same]
      exact ⟨rfl, keep⟩
    | one unit same whole =>
      have alone : ∀ next ∈ (chars.flatMap charUnits).head?,
          ¬(isHigh unit = true ∧ isLow next = true) := by
        simp [whole.1]
      obtain ⟨first, second⟩ := unitsChars_cons alone
      have back : unitChar unit = c := by simp [unitChar, whole, same]
      rw [List.singleton_append, first, second, text, back]
      exact ⟨rfl, keep⟩
    | pair high low plain isPair upper lower =>
      have halves := halves_of_units upper lower
      have back := pairChar_of_units isPair upper lower
      simp [unitsChars, pairsKeep, halves, back, text, keep, plain]

/-! Text that is joined where two halves meet. -/

/-- The second text is the first with some halves joined, each two of them to one character. -/
inductive Joins : List Char → List Char → Prop
  | nil : Joins [] []
  | keep (c : Char) {chars others : List Char} (rest : Joins chars others) :
      Joins (c :: chars) (c :: others)
  | pair (high low c : Char) (large : 0x10000 ≤ c.toNat) {chars others : List Char}
      (rest : Joins chars others) : Joins (high :: low :: chars) (c :: others)

theorem le_toNat_pairChar {high low : UInt16} (isPair : isHigh high = true ∧ isLow low = true) :
    0x10000 ≤ (pairChar high low).toNat := by
  obtain ⟨upper, lower⟩ := isPair
  rw [isHigh_iff] at upper
  rw [isLow_iff] at lower
  have valid : (0x10000 + (high.toNat - 0xD800) * 0x400 + (low.toNat - 0xDC00)).isValidChar :=
    .inr ⟨by omega, by omega⟩
  unfold pairChar Char.ofNat
  rw [dif_pos valid]
  exact Nat.le_trans (Nat.le_add_right _ _) (Nat.le_add_right _ _)

theorem charUnits_of_low {c : Char} {rest : List UInt16} {unit : UInt16}
    (first : unit ∈ (charUnits c ++ rest).head?) (low : isLow unit = true) : charUnits c = [unit] := by
  have escaped := escapedLow_of_head first low
  rw [isEscapedLow_iff] at escaped
  generalize here : charUnits c = units at first
  have form := units_charUnits c
  rw [here] at form
  cases form with
  | half found escape same =>
    obtain rfl : found = unit := by simpa using first
    rfl
  | one found same whole =>
    obtain rfl : found = unit := by simpa using first
    simp [low] at whole
  | pair _ _ plain _ _ _ =>
    rw [Bool.eq_false_iff, ne_eq, isEscape_iff] at plain
    omega

theorem joins_unitsChars : ∀ chars : List Char, Joins chars (unitsChars (chars.flatMap charUnits))
  | [] => .nil
  | c :: chars => by
    have later := joins_unitsChars chars
    rw [List.flatMap_cons]
    generalize here : charUnits c = units
    have form := units_charUnits c
    rw [here] at form
    have keeps {unit : UInt16} (back : unitChar unit = c)
        (apart : ∀ next ∈ (chars.flatMap charUnits).head?, ¬(isHigh unit = true ∧ isLow next = true)) :
        Joins (c :: chars) (unitsChars ([unit] ++ chars.flatMap charUnits)) := by
      rw [List.singleton_append, (unitsChars_cons apart).1, back]
      exact .keep c later
    cases form with
    | half unit escape same =>
      have back := unitChar_half escape same
      by_cases apart : ∀ next ∈ (chars.flatMap charUnits).head?, ¬(isHigh unit = true ∧ isLow next = true)
      · exact keeps back apart
      · push Not at apart
        obtain ⟨low, first, halves⟩ := apart
        cases chars with
        | nil => simp at first
        | cons d chars =>
          rw [List.flatMap_cons] at first ⊢
          have both : (isHigh unit && isLow low) = true := by simp [halves]
          rw [charUnits_of_low first halves.2]
          simp only [List.singleton_append, unitsChars, both, if_true]
          exact .pair c d _ (le_toNat_pairChar halves) (joins_unitsChars chars)
    | one unit same whole =>
      exact keeps (by simp [unitChar, whole, same]) (by simp [whole.1])
    | pair high low plain isPair upper lower =>
      have halves := halves_of_units upper lower
      simp only [List.cons_append, List.nil_append, unitsChars, halves, if_true,
        pairChar_of_units isPair upper lower]
      exact .keep c later
termination_by chars => chars.length

theorem Joins.starts_of_starts {chars others part : List Char} (joins : Joins chars others)
    (small : ∀ c ∈ part, c.toNat < 0x10000) (front : part <+: others) : part <+: chars := by
  induction joins generalizing part with
  | nil => exact front
  | keep c _ ih =>
    cases part with
    | nil => exact List.nil_prefix
    | cons d part =>
      obtain ⟨rfl, behind⟩ := List.cons_prefix_cons.1 front
      have rest : ∀ e ∈ part, e.toNat < 0x10000 := fun e inside => small e (by simp [inside])
      exact List.cons_prefix_cons.2 ⟨rfl, ih rest behind⟩
  | pair high low c large _ ih =>
    cases part with
    | nil => exact List.nil_prefix
    | cons d part =>
      obtain ⟨rfl, -⟩ := List.cons_prefix_cons.1 front
      exact absurd (small d (by simp)) (Nat.not_lt.2 large)

theorem Joins.isInfix_of_isInfix {chars others part : List Char} (joins : Joins chars others)
    (small : ∀ c ∈ part, c.toNat < 0x10000) (inside : part <:+: others) : part <:+: chars := by
  induction joins with
  | nil => exact inside
  | keep c rest ih =>
    rcases List.infix_cons_iff.1 inside with front | inside
    · exact ((Joins.keep c rest).starts_of_starts small front).isInfix
    · exact List.infix_cons (ih inside)
  | pair high low c large rest ih =>
    rcases List.infix_cons_iff.1 inside with front | inside
    · exact ((Joins.pair high low c large rest).starts_of_starts small front).isInfix
    · exact List.infix_cons (List.infix_cons (ih inside))

theorem Joins.eq_of_small {chars others : List Char} (joins : Joins chars others)
    (small : ∀ c ∈ others, c.toNat < 0x10000) : chars = others := by
  induction joins with
  | nil => rfl
  | keep c _ ih => rw [ih fun d member => small d (by simp [member])]
  | pair _ _ c large _ _ => exact absurd (small c (by simp)) (Nat.not_lt.2 large)

theorem encode_eq (text : String) :
    encode text = (text.toList.flatMap charUnits).flatMap unitBytes := by
  rw [encode, List.flatMap_assoc]

/-- What a text comes back as when it is stored and read. -/
def recoded (text : String) : String := String.ofList (unitsChars (text.toList.flatMap charUnits))

theorem decode_encode (text : String) :
    decode (encode text) = .ok ⟨recoded text, pairsKeep (text.toList.flatMap charUnits)⟩ := by
  have taken := takeUnits_flatMap (length_le_flatMap_unitBytes (text.toList.flatMap charUnits))
  have units : (text.toList.flatMap charUnits).map (Prod.fst ∘ fun unit => (unit, true)) =
      text.toList.flatMap charUnits := List.map_id _
  rw [decode, encode_eq, taken]
  simp only [List.map_map, units, List.all_map]
  simp [recoded]

theorem joins_recoded (text : String) : Joins text.toList (recoded text).toList := by
  rw [recoded, String.toList_ofList]
  exact joins_unitsChars text.toList

theorem recoded_eq_self {text : String} (storable : Storable text) : recoded text = text := by
  rw [recoded, (unitsChars_flatMap storable).1, String.ofList_toList]

theorem storable_of_small {text : String} (small : ∀ c ∈ text.toList, c.toNat < 0x10000) :
    Storable text := by
  unfold Storable
  generalize text.toList = chars at small
  induction chars with
  | nil => exact .nil
  | cons c chars ih =>
    rw [List.forall_mem_cons] at small
    refine List.isChain_cons.2 ⟨fun next _ both => ?_, ih small.2⟩
    have high := (isEscapedHigh_iff c).1 both.1
    omega

theorem decode_encode_of_storable {text : String} (storable : Storable text) :
    decode (encode text) = .ok ⟨text, true⟩ := by
  rw [decode_encode, recoded_eq_self storable, (unitsChars_flatMap storable).2]

end ModifiedUtf8

def AllStorable (texts : List String) : Prop := ∀ text ∈ texts, ModifiedUtf8.Storable text

instance (texts : List String) : Decidable (AllStorable texts) :=
  inferInstanceAs (Decidable (∀ text ∈ texts, ModifiedUtf8.Storable text))

end ClassRenaming
