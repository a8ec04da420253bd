import ClassRenaming.Proofs.Reading
import Mathlib.Data.List.Forall2

/-!
Which bytes a reader takes for which value, whatever follows them. The laws put the readers of parts
together in the order in which the parts are written.
-/

namespace ClassRenaming

/-- The reader takes exactly these bytes off the front and makes this value of them. -/
def Reads {α : Type} (reader : Reader α) (bytes : Bytes) (value : α) : Prop :=
  ∀ rest, reader (bytes ++ rest) = .ok (value, rest)

namespace Bytes

@[simp]
theorem length_u1 (value : UInt8) : (u1 value).length = 1 := rfl

@[simp]
theorem length_u2 (value : UInt16) : (u2 value).length = 2 := rfl

@[simp]
theorem length_u4 (value : UInt32) : (u4 value).length = 4 := rfl

@[simp]
theorem length_u8 (value : UInt64) : (u8 value).length = 8 := rfl

theorem splitExact_append (taken rest : Bytes) :
    splitExact taken.length (taken ++ rest) = some (taken, rest) := by
  induction taken with
  | nil => rfl
  | cons b taken ih => simp [splitExact, ih]

theorem tableCount_eq_ok {length : Nat} {count : Bytes} :
    tableCount length = .ok count ↔ length < 65536 ∧ count = u2 length.toUInt16 := by
  unfold tableCount
  split
  case isTrue short => simp [short, eq_comm]
  case isFalse long => simp [long]

theorem toNat_toUInt16 {length : Nat} (short : length < 65536) : length.toUInt16.toNat = length := by
  simp only [Nat.toUInt16, UInt16.toNat_ofNat']
  omega

theorem toNat_toUInt8 {count : Nat} (small : count < 256) : count.toUInt8.toNat = count := by
  simp only [Nat.toUInt8, UInt8.toNat_ofNat']
  omega

theorem toUInt8_le {count : Nat} {high : UInt8} (inside : count ≤ high.toNat) :
    count.toUInt8 ≤ high := by
  have bound := high.toNat_lt
  rw [UInt8.le_iff_toNat_le, toNat_toUInt8 (by omega)]
  exact inside

theorem le_toUInt8 {count : Nat} {low : UInt8} (inside : low.toNat ≤ count) (small : count < 256) :
    low ≤ count.toUInt8 := by
  rw [UInt8.le_iff_toNat_le, toNat_toUInt8 small]
  exact inside

end Bytes

namespace Reads

open Reader

variable {α β : Type} {reader : Reader α} {bytes more : Bytes} {value : α} {result : β}

theorem pure (value : α) : Reads (pure value : Reader α) [] value := fun _ => rfl

theorem lift {action : Except FormatError α} (done : action = .ok value) :
    Reads (liftM action) [] value := by
  intro rest
  subst done
  rfl

theorem bind {next : α → Reader β} (first : Reads reader bytes value)
    (later : Reads (next value) more result) : Reads (reader >>= next) (bytes ++ more) result := by
  intro rest
  rw [List.append_assoc]
  exact bind_eq_ok.2 ⟨value, more ++ rest, first _, later rest⟩

theorem last {next : α → Reader β} (first : Reads reader bytes value)
    (later : Reads (next value) [] result) : Reads (reader >>= next) bytes result := by
  have both := first.bind later
  rwa [List.append_nil] at both

theorem skip {next : α → Reader β} (first : Reads reader [] value)
    (later : Reads (next value) more result) : Reads (reader >>= next) more result :=
  first.bind later

theorem map (f : α → β) (first : Reads reader bytes value) : Reads (f <$> reader) bytes (f value) := by
  rw [← bind_pure_comp]
  exact first.last (.pure _)

theorem discard (first : Reads reader bytes value) : Reads (discard reader) bytes () :=
  map (Function.const α ()) first

theorem all {leftover : Nat → FormatError} (first : Reads reader bytes value) :
    reader.all bytes leftover = .ok value := by
  have whole := first []
  rw [List.append_nil] at whole
  exact Reader.all_eq_ok.2 whole

theorem u1 (value : UInt8) : Reads Reader.u1 (Bytes.u1 value) value := fun _ => rfl

theorem tagged {next : UInt8 → Reader β} {tag : UInt8} (later : Reads (next tag) more result) :
    Reads (Reader.u1 >>= next) (tag :: more) result :=
  (u1 tag).bind later

theorem u2 (value : UInt16) : Reads Reader.u2 (Bytes.u2 value) value := by
  intro rest
  have same : (value >>> 8).toUInt8.toUInt16 <<< 8 ||| value.toUInt8.toUInt16 = value := by
    apply UInt16.toNat_inj.1
    have bound := value.toNat_lt
    have eight : UInt16.toNat 8 % 16 = 8 := rfl
    simp only [UInt16.toNat_or, UInt16.toNat_shiftLeft, UInt8.toNat_toUInt16, UInt16.toNat_toUInt8,
      UInt16.toNat_shiftRight, eight, Nat.shiftRight_eq_div_pow, Nat.shiftLeft_eq]
    rw [Nat.mod_eq_of_lt (by omega), Nat.mul_comm, ← Nat.two_pow_add_eq_or_of_lt (by omega)]
    omega
  simp only [Bytes.u2, Reader.u2, List.cons_append, List.nil_append, same]

theorem u4 (value : UInt32) : Reads Reader.u4 (Bytes.u4 value) value := by
  intro rest
  have same : (value >>> 24).toUInt8.toUInt32 <<< 24 ||| (value >>> 16).toUInt8.toUInt32 <<< 16
      ||| (value >>> 8).toUInt8.toUInt32 <<< 8 ||| value.toUInt8.toUInt32 = value := by
    apply UInt32.toNat_inj.1
    have bound := value.toNat_lt
    have h24 : UInt32.toNat 24 % 32 = 24 := rfl
    have h16 : UInt32.toNat 16 % 32 = 16 := rfl
    have h8 : UInt32.toNat 8 % 32 = 8 := rfl
    simp only [UInt32.toNat_or, UInt32.toNat_shiftLeft, UInt8.toNat_toUInt32, UInt32.toNat_toUInt8,
      UInt32.toNat_shiftRight, h24, h16, h8, Nat.shiftRight_eq_div_pow, Nat.shiftLeft_eq,
      Nat.or_assoc]
    rw [Nat.mod_eq_of_lt (b := 2 ^ 32) (by omega), Nat.mod_eq_of_lt (b := 2 ^ 32) (by omega),
      Nat.mod_eq_of_lt (b := 2 ^ 32) (by omega)]
    -- The bytes do not overlap, from the last one on, so that each `|||` is a sum.
    rw [Nat.mul_comm _ (2 ^ 8), ← Nat.two_pow_add_eq_or_of_lt (by omega),
      Nat.mul_comm _ (2 ^ 16), ← Nat.two_pow_add_eq_or_of_lt (by omega),
      Nat.mul_comm _ (2 ^ 24), ← Nat.two_pow_add_eq_or_of_lt (by omega)]
    omega
  simp only [Bytes.u4, Reader.u4, List.cons_append, List.nil_append, same]

theorem u8 (value : UInt64) : Reads Reader.u8 (Bytes.u8 value) value := by
  have same : (value >>> 32).toUInt32.toUInt64 <<< 32 ||| value.toUInt32.toUInt64 = value := by
    apply UInt64.toNat_inj.1
    have bound := value.toNat_lt
    have half : UInt64.toNat 32 % 64 = 32 := rfl
    simp only [UInt64.toNat_or, UInt64.toNat_shiftLeft, UInt32.toNat_toUInt64, UInt64.toNat_toUInt32,
      UInt64.toNat_shiftRight, half, Nat.shiftRight_eq_div_pow, Nat.shiftLeft_eq]
    rw [Nat.mod_eq_of_lt (by omega), Nat.mul_comm, ← Nat.two_pow_add_eq_or_of_lt (by omega)]
    omega
  refine (u4 _).bind ((u4 _).last ?_)
  rw [same]
  exact .pure _

theorem take {count : Nat} (length : bytes.length = count) : Reads (Reader.take count) bytes bytes := by
  intro rest
  subst length
  simp [Reader.take, Bytes.splitExact_append]

theorem many {parts : List Bytes} {items : List α} (each : List.Forall₂ (Reads reader) parts items) :
    Reads (Reader.many items.length reader) parts.flatten items := by
  induction each with
  | nil => exact .pure _
  | cons first _ ih => exact first.bind (ih.last (.pure _))

theorem each_within {reads : Nat → Bytes → α → Prop} {parts : List Bytes} {items : List α}
    (each : List.Forall₂ (fun item bytes => ∀ fuel, bytes.length ≤ fuel → reads fuel bytes item) items
      parts) {fuel : Nat} (enough : parts.flatten.length ≤ fuel) :
    List.Forall₂ (reads fuel) parts items := by
  induction each with
  | nil => exact .nil
  | cons first _ ih =>
    rw [List.flatten_cons, List.length_append] at enough
    exact .cons (first fuel (by omega)) (ih (by omega))

theorem counted {length : Nat} {count : Bytes} {items : List α}
    (counts : Bytes.tableCount length = .ok count)
    (each : Reads (Reader.many length reader) bytes items) :
    Reads (Reader.table reader) (count ++ bytes) items := by
  obtain ⟨short, rfl⟩ := Bytes.tableCount_eq_ok.1 counts
  refine (u2 _).bind ?_
  rwa [Bytes.toNat_toUInt16 short]

theorem table {length : Nat} {count : Bytes} {parts : List Bytes} {items : List α}
    (counts : Bytes.tableCount length = .ok count) (same : items.length = length)
    (each : List.Forall₂ (Reads reader) parts items) :
    Reads (Reader.table reader) (count ++ parts.flatten) items := by
  subst same
  exact counted counts (many each)

end Reads

end ClassRenaming
