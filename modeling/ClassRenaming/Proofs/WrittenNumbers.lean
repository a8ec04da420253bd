import ClassRenaming.Proofs.StoredInstructions

/-!
The numbers that an instruction is written as. Each is cut to the bytes that its place has for it,
and for an instruction as one is read nothing is lost by that.
-/

namespace ClassRenaming

/-- A number as it stands in a file: the bytes it takes, and whether these have a sign. -/
structure Word where
  width : Nat
  signed : Bool
  value : Int

namespace Word

def u1 (value : Int) : Word := ⟨1, false, value⟩

def u2 (value : Int) : Word := ⟨2, false, value⟩

def i1 (value : Int) : Word := ⟨1, true, value⟩

def i2 (value : Int) : Word := ⟨2, true, value⟩

def i4 (value : Int) : Word := ⟨4, true, value⟩

def lowByte (value : Int) : UInt8 := (value % 256).toNat.toUInt8

def lowBytes : Nat → Int → Bytes
  | 0, _ => []
  | width + 1, value => lowBytes width (value / 256) ++ [lowByte value]

def bytes (word : Word) : Bytes := lowBytes word.width word.value

def count : Nat → Int
  | 0 => 1
  | width + 1 => count width * 256

def unsigned (bytes : Bytes) : Int := bytes.foldl (fun value byte => 256 * value + byte.toNat) 0

def twosComplement (bytes : Bytes) : Int :=
  if 2 * unsigned bytes < count bytes.length then unsigned bytes
  else unsigned bytes - count bytes.length

def Kept (word : Word) : Prop :=
  (if word.signed then twosComplement word.bytes else unsigned word.bytes) = word.value

def Fits (word : Word) : Prop :=
  if word.signed then -count word.width ≤ 2 * word.value ∧ 2 * word.value < count word.width
  else 0 ≤ word.value ∧ word.value < count word.width

theorem fits_u1 {value : Int} : (u1 value).Fits ↔ 0 ≤ value ∧ value < 256 := Iff.rfl

theorem fits_u2 {value : Int} : (u2 value).Fits ↔ 0 ≤ value ∧ value < 65536 := Iff.rfl

theorem fits_i1 {value : Int} : (i1 value).Fits ↔ -256 ≤ 2 * value ∧ 2 * value < 256 := Iff.rfl

theorem fits_i2 {value : Int} : (i2 value).Fits ↔ -65536 ≤ 2 * value ∧ 2 * value < 65536 := Iff.rfl

theorem fits_i4 {value : Int} :
    (i4 value).Fits ↔ -4294967296 ≤ 2 * value ∧ 2 * value < 4294967296 := Iff.rfl

theorem toNat_lowByte (value : Int) : ((lowByte value).toNat : Int) = value % 256 := by
  rw [lowByte, Bytes.toNat_toUInt8 (by omega)]
  omega

theorem lowByte_eq {value : Int} {byte : UInt8} (same : value % 256 = (byte.toNat : Int)) :
    lowByte value = byte := by
  rw [lowByte, same, Int.toNat_natCast]
  exact byte.ofNat_toNat

theorem length_lowBytes (width : Nat) (value : Int) : (lowBytes width value).length = width := by
  induction width generalizing value with
  | zero => rfl
  | succ width ih => rw [lowBytes, List.length_append, ih, List.length_singleton]

theorem count_pos (width : Nat) : 0 < count width := by
  induction width with
  | zero => exact Int.one_pos
  | succ width ih =>
    rw [count]
    omega

theorem unsigned_lowBytes (width : Nat) (value : Int) :
    unsigned (lowBytes width value) = value % count width := by
  induction width generalizing value with
  | zero => exact (Int.emod_one value).symm
  | succ width ih =>
    have positive := count_pos width
    have front : (lowBytes width (value / 256)).foldl
        (fun value byte => 256 * value + (byte.toNat : Int)) 0 = value / 256 % count width := ih _
    rw [lowBytes, unsigned, List.foldl_append, front, List.foldl_cons, List.foldl_nil,
      toNat_lowByte, count]
    clear front ih
    generalize count width = size at positive
    have low := Int.emod_nonneg (value / 256) (Int.ne_of_gt positive)
    have high := Int.emod_lt_of_pos (value / 256) positive
    have parts := Int.mul_ediv_add_emod (value / 256) size
    generalize value / 256 % size = rest at low high parts
    have whole : value = 256 * rest + value % 256 + size * 256 * (value / 256 / size) := by
      rw [Int.mul_right_comm]
      omega
    have small : (256 * rest + value % 256) % (size * 256) = 256 * rest + value % 256 :=
      Int.emod_eq_of_lt (by omega) (by omega)
    conv_rhs => rw [whole, Int.add_mul_emod_self_left, small]

theorem kept_of_fits {word : Word} (fits : word.Fits) : word.Kept := by
  have positive := count_pos word.width
  unfold Fits at fits
  unfold Kept twosComplement bytes
  rw [unsigned_lowBytes, length_lowBytes]
  generalize count word.width = size at fits positive
  split at fits
  case isFalse positive =>
    rw [if_neg positive]
    exact Int.emod_eq_of_lt fits.1 fits.2
  case isTrue signed =>
    rw [if_pos signed]
    rcases Int.lt_or_le word.value 0 with negative | positive
    · have wrapped : word.value % size = word.value + size := by
        rw [← Int.add_emod_right, Int.emod_eq_of_lt (by omega) (by omega)]
      rw [wrapped, if_neg (by omega)]
      omega
    · rw [Int.emod_eq_of_lt positive (by omega), if_pos fits.2]

/-! The bytes of fixed width. -/

theorem lowBytes_one {value : Int} {byte : UInt8} (same : value % 256 = (byte.toNat : Int)) :
    lowBytes 1 value = [byte] := by
  rw [lowBytes, lowBytes, lowByte_eq same, List.nil_append]

theorem lowBytes_two {value : Int} {word : UInt16} (same : value % 65536 = word.toNat) :
    lowBytes 2 value = Bytes.u2 word := by
  have high : (value / 256 % 256 : Int) = ((word >>> 8).toUInt8.toNat : Int) := by
    simp only [UInt16.toNat_toUInt8, UInt16.toNat_shiftRight, UInt16.reduceToNat, Nat.reduceMod,
      Nat.shiftRight_eq_div_pow, Nat.reducePow]
    omega
  have low : value % 256 = (word.toUInt8.toNat : Int) := by
    rw [UInt16.toNat_toUInt8]
    omega
  rw [lowBytes, lowBytes_one high, lowByte_eq low]
  rfl

theorem lowBytes_four {value : Int} {word : UInt32} (same : value % 4294967296 = word.toNat) :
    lowBytes 4 value = Bytes.u4 word := by
  have first : (value / 256 / 256 / 256 % 256 : Int) = ((word >>> 24).toUInt8.toNat : Int) := by
    simp only [UInt32.toNat_toUInt8, UInt32.toNat_shiftRight, UInt32.reduceToNat, Nat.reduceMod,
      Nat.shiftRight_eq_div_pow, Nat.reducePow]
    omega
  have second : (value / 256 / 256 % 256 : Int) = ((word >>> 16).toUInt8.toNat : Int) := by
    simp only [UInt32.toNat_toUInt8, UInt32.toNat_shiftRight, UInt32.reduceToNat, Nat.reduceMod,
      Nat.shiftRight_eq_div_pow, Nat.reducePow]
    omega
  have third : (value / 256 % 256 : Int) = ((word >>> 8).toUInt8.toNat : Int) := by
    simp only [UInt32.toNat_toUInt8, UInt32.toNat_shiftRight, UInt32.reduceToNat, Nat.reduceMod,
      Nat.shiftRight_eq_div_pow, Nat.reducePow]
    omega
  have last : value % 256 = (word.toUInt8.toNat : Int) := by
    rw [UInt32.toNat_toUInt8]
    omega
  rw [lowBytes, lowBytes, lowBytes, lowBytes_one first, lowByte_eq second, lowByte_eq third,
    lowByte_eq last]
  rfl

theorem toNat_ofInt16 (value : Int) :
    value % 65536 = ((Int16.ofInt value).toUInt16.toNat : Int) := by
  have same : (Int16.ofInt value).toUInt16.toNat = (value % 65536).toNat := BitVec.toNat_ofInt value
  rw [same]
  omega

theorem toNat_ofInt32 (value : Int) :
    value % 4294967296 = ((Int32.ofInt value).toUInt32.toNat : Int) := by
  have same : (Int32.ofInt value).toUInt32.toNat = (value % 4294967296).toNat :=
    BitVec.toNat_ofInt value
  rw [same]
  omega

/-- Numbers one behind the other, with nothing of any of them lost. -/
structure Spells (words : List Word) (bytes : Bytes) : Prop where
  bytes : bytes = words.flatMap Word.bytes
  kept : ∀ word ∈ words, word.Kept

namespace Spells

variable {words others : List Word} {bytes more : Bytes} {value : Int}

theorem nil : Spells [] [] := ⟨rfl, by simp⟩

theorem append (front : Spells words bytes) (back : Spells others more) :
    Spells (words ++ others) (bytes ++ more) := by
  refine ⟨by rw [front.bytes, back.bytes, List.flatMap_append], fun word member => ?_⟩
  exact (List.mem_append.1 member).elim (front.kept word) (back.kept word)

theorem single {word : Word} (same : word.bytes = bytes) (fits : word.Fits) :
    Spells [word] bytes := by
  refine ⟨by rw [List.flatMap_singleton, same], fun other member => ?_⟩
  rw [List.mem_singleton.1 member]
  exact kept_of_fits fits

theorem flatMap {α : Type} {parts : α → List Word} {write : α → Bytes} {items : List α}
    (each : ∀ item ∈ items, Spells (parts item) (write item)) :
    Spells (items.flatMap parts) (items.flatMap write) := by
  induction items with
  | nil => exact nil
  | cons item rest ih =>
    rw [List.flatMap_cons, List.flatMap_cons]
    exact (each item (by simp)).append (ih fun other member => each other (by simp [member]))

theorem u1 {byte : UInt8} (same : value = byte.toNat) : Spells [.u1 value] [byte] := by
  have high := byte.toNat_lt
  exact single (lowBytes_one (by omega : value % 256 = byte.toNat)) (fits_u1.2 (by omega))

theorem byte (byte : UInt8) : Spells [.u1 byte.toNat] [byte] := u1 rfl

theorem cut {index : UInt16} (small : index.toNat < 256) :
    Spells [.u1 index.toNat] [index.toUInt8] := by
  refine u1 ?_
  rw [UInt16.toNat_toUInt8]
  omega

theorem u2 {word : UInt16} (same : value = word.toNat) : Spells [.u2 value] (Bytes.u2 word) := by
  have high := word.toNat_lt
  exact single (lowBytes_two (by omega : value % 65536 = word.toNat)) (fits_u2.2 (by omega))

theorem i1 (value : Int8) :
    Spells [.i1 value.toInt16.toInt] [value.toInt16.toUInt16.toUInt8] := by
  rw [Int8.toInt_toInt16]
  have low := value.le_toInt
  have high := value.toInt_lt
  have wide := toNat_ofInt16 value.toInt
  rw [Int16.ofInt_int8ToInt] at wide
  refine single (lowBytes_one (?_ : value.toInt % 256 = _)) (fits_i1.2 (by omega))
  rw [UInt16.toNat_toUInt8]
  omega

theorem i2 (low : -32768 ≤ value) (high : value ≤ 32767) :
    Spells [.i2 value] (Bytes.u2 (Int16.ofInt value).toUInt16) := by
  exact single (lowBytes_two (toNat_ofInt16 value)) (fits_i2.2 (by omega))

theorem i4 (low : -2147483648 ≤ value) (high : value ≤ 2147483647) :
    Spells [.i4 value] (Bytes.u4 (Int32.ofInt value).toUInt32) := by
  exact single (lowBytes_four (toNat_ofInt32 value)) (fits_i4.2 (by omega))

theorem int16 (value : Int16) : Spells [.i2 value.toInt] (Bytes.u2 value.toUInt16) := by
  have fixed := i2 value.le_toInt value.toInt_le
  rwa [Int16.ofInt_toInt] at fixed

theorem int32 (value : Int32) : Spells [.i4 value.toInt] (Bytes.u4 value.toUInt32) := by
  have fixed := i4 value.le_toInt value.toInt_le
  rwa [Int32.ofInt_toInt] at fixed

end Spells

end Word

namespace Instruction

def words (move : Nat → Nat) (position : Nat) (operand : Option UInt16) :
    Instruction → Except FormatError (List Word)
  | simple opcode => return [.u1 opcode.toNat]
  | push opcode value =>
    return [.u1 opcode.toNat, if opcode = Opcode.bipush then .i1 value.toInt else .i2 value.toInt]
  | load opcode _ => do
    let index ← needOperand operand
    return if opcode ≠ Opcode.ldc then [.u1 opcode.toNat, .u2 index.toNat]
      else if index ≤ 255 then [.u1 Opcode.ldc.toNat, .u1 index.toNat]
      else [.u1 Opcode.ldcW.toNat, .u2 index.toNat]
  | .local opcode index wide =>
    return if wide then [.u1 Opcode.wide.toNat, .u1 opcode.toNat, .u2 index.toNat]
      else [.u1 opcode.toNat, .u1 index.toNat]
  | increment index delta wide =>
    return if wide then
      [.u1 Opcode.wide.toNat, .u1 Opcode.iinc.toNat, .u2 index.toNat, .i2 delta.toInt]
      else [.u1 Opcode.iinc.toNat, .u1 index.toNat, .i1 delta.toInt]
  | jump opcode target =>
    return [.u1 opcode.toNat, if opcode = Opcode.gotoW ∨ opcode = Opcode.jsrW then
      .i4 (distance target) else .i2 (distance target)]
  | tableSwitch default low high targets =>
    return .u1 Opcode.tableswitch.toNat :: List.replicate (padding position) (.u1 0) ++
      [.i4 (distance default), .i4 low.toInt, .i4 high.toInt] ++
      targets.map fun target => .i4 (distance target)
  | lookupSwitch default pairs =>
    return .u1 Opcode.lookupswitch.toNat :: List.replicate (padding position) (.u1 0) ++
      [.i4 (distance default), .i4 pairs.length] ++
      pairs.flatMap fun (key, target) => [.i4 key.toInt, .i4 (distance target)]
  | type opcode _ | field opcode _ =>
    return [.u1 opcode.toNat, .u2 (← needOperand operand).toNat]
  | method opcode member _ => do
    let index ← needOperand operand
    if opcode = Opcode.invokeinterface then
      let type ← Descriptor.methodType member.descriptor
      return [.u1 opcode.toNat, .u2 index.toNat, .u1 (type.parameterSlots + 1), .u1 0]
    else return [.u1 opcode.toNat, .u2 index.toNat]
  | invokeDynamic .. =>
    return [.u1 Opcode.invokedynamic.toNat, .u2 (← needOperand operand).toNat, .u2 0]
  | newArray elementType => return [.u1 Opcode.newarray.toNat, .u1 elementType.toNat]
  | multiArray _ dimensions =>
    return [.u1 Opcode.multianewarray.toNat, .u2 (← needOperand operand).toNat,
      .u1 dimensions.toNat]
where
  /-- From the instruction to a target that has moved. -/
  distance (target : Nat) : Int := (move target : Int) - position

variable {depth : Nat} {move : Nat → Nat} {position : Nat} {operand : Option UInt16} {bytes : Bytes}

open Word

theorem argumentCount_eq_ok {descriptor : String} {count : UInt8}
    (done : argumentCount descriptor = .ok count) :
    ∃ type, Descriptor.methodType descriptor = .ok type ∧
      type.parameterSlots + 1 = count.toNat := by
  obtain ⟨type, read, done⟩ := Except.bind_eq_ok.1 done
  refine ⟨type, read, ?_⟩
  dsimp only at done
  split at done
  · cases done
  · cases done
    exact (Bytes.toNat_toUInt8 (by omega)).symm

theorem spells_padding (count : Nat) :
    Spells (List.replicate count (.u1 0)) (List.replicate count 0) := by
  induction count with
  | zero => exact .nil
  | succ count ih => exact (Spells.byte 0).append ih

theorem spells_aligned (opcode : UInt8) (position : Nat) :
    Spells (.u1 opcode.toNat :: List.replicate (padding position) (.u1 0))
      (opcode :: List.replicate (padding position) 0) :=
  (Spells.byte opcode).append (spells_padding _)

theorem spells_distance (near : ∀ target, move target ≤ 65535) (here : position ≤ 65535)
    (target : Nat) : Spells [.i4 (words.distance move position target)]
      (farDistance ((move target : Int) - position)) := by
  have small := near target
  exact .i4 (by dsimp only [words.distance]; omega) (by dsimp only [words.distance]; omega)

theorem spells_writeJump {opcode : UInt8} {target : Nat}
    (near : target ≤ 65535) (here : position ≤ 65535)
    (written : writeJump opcode position target = .ok bytes) :
    Spells [.u1 opcode.toNat, if opcode = Opcode.gotoW ∨ opcode = Opcode.jsrW then
      .i4 ((target : Int) - position) else .i2 ((target : Int) - position)] bytes := by
  simp only [writeJump] at written
  split at written
  case isTrue far =>
    cases written
    rw [if_pos far]
    exact (Spells.byte opcode).append (.i4 (by omega) (by omega))
  case isFalse short =>
    rw [if_neg short]
    split at written
    case isTrue range =>
      cases written
      exact (Spells.byte opcode).append (.i2 range.1 range.2)
    case isFalse => cases written

theorem spells_load {opcode : UInt8} {constant : Constant}
    (written : (load opcode constant).write move position operand = .ok bytes) :
    ∃ words, (load opcode constant).words move position operand = .ok words ∧ Spells words bytes := by
  obtain ⟨index, found, emitted⟩ := Except.bind_eq_ok.1 written
  obtain rfl := eq_some_of_needOperand found
  refine ⟨_, rfl, ?_⟩
  split at emitted
  case isTrue long =>
    cases emitted
    rw [if_pos long]
    exact (Spells.byte opcode).append (.u2 rfl)
  case isFalse short =>
    rw [if_neg short]
    split at emitted
    case isTrue low =>
      cases emitted
      rw [if_pos low]
      exact (Spells.byte Opcode.ldc).append (.cut (Nat.lt_succ_of_le low))
    case isFalse high =>
      cases emitted
      rw [if_neg high]
      exact (Spells.byte Opcode.ldcW).append (.u2 rfl)

theorem spells_tableSwitch (near : ∀ target, move target ≤ 65535) (here : position ≤ 65535)
    (default : Nat) (low high : Int32) (targets : List Nat)
    (written : (tableSwitch default low high targets).write move position operand = .ok bytes) :
    ∃ words, (tableSwitch default low high targets).words move position operand = .ok words ∧
      Spells words bytes := by
  cases written
  have far := spells_distance near here
  have ends := (Spells.int32 low).append (.int32 high)
  have each := Spells.flatMap fun target (_ : target ∈ targets) => far target
  have header := (spells_aligned Opcode.tableswitch position).append (far default)
  have all := (header.append ends).append each
  refine ⟨_, rfl, ?_⟩
  simpa only [List.append_assoc, List.cons_append, List.nil_append, List.map_eq_flatMap] using all

theorem spells_lookupSwitch (near : ∀ target, move target ≤ 65535) (here : position ≤ 65535)
    (default : Nat) {pairs : List (Int32 × Nat)} (few : pairs.length < 65536)
    (written : (lookupSwitch default pairs).write move position operand = .ok bytes) :
    ∃ words, (lookupSwitch default pairs).words move position operand = .ok words ∧
      Spells words bytes := by
  cases written
  have far := spells_distance near here
  have count : Spells [.i4 pairs.length] (Bytes.u4 pairs.length.toUInt32) :=
    .i4 (by omega) (by omega)
  have each := Spells.flatMap fun pair (_ : pair ∈ pairs) =>
    (Spells.int32 pair.1).append (far pair.2)
  have header := (spells_aligned Opcode.lookupswitch position).append (far default)
  have all := (header.append count).append each
  refine ⟨_, rfl, ?_⟩
  simpa only [List.append_assoc, List.cons_append, List.nil_append] using all

theorem spells_method {opcode : UInt8} {member : MemberRef} {isInterface : Bool}
    (written : (method opcode member isInterface).write move position operand = .ok bytes) :
    ∃ words, (method opcode member isInterface).words move position operand = .ok words ∧
      Spells words bytes := by
  obtain ⟨index, found, emitted⟩ := Except.bind_eq_ok.1 written
  obtain rfl := eq_some_of_needOperand found
  split at emitted
  case isTrue interface =>
    obtain ⟨count, counted, emitted⟩ := Except.bind_eq_ok.1 emitted
    cases emitted
    obtain ⟨type, read, slots⟩ := argumentCount_eq_ok counted
    refine ⟨_, (if_pos interface).trans (Except.bind_eq_ok.2 ⟨type, read, rfl⟩), ?_⟩
    have last : Spells [.u1 (type.parameterSlots + 1), .u1 0] [count, 0] :=
      (Spells.u1 (by omega)).append (.byte 0)
    exact (Spells.byte opcode).append ((Spells.u2 rfl).append last)
  case isFalse other =>
    cases emitted
    exact ⟨_, if_neg other, (Spells.byte opcode).append (.u2 rfl)⟩

theorem Proper.spells_write {instruction : Instruction} (proper : instruction.Proper depth)
    (near : ∀ target, move target ≤ 65535)
    (fits : position + instruction.writtenSize operand position ≤ 65535)
    (written : instruction.write move position operand = .ok bytes) :
    ∃ words, instruction.words move position operand = .ok words ∧ Spells words bytes := by
  cases instruction with
  | simple opcode =>
    cases written
    exact ⟨_, rfl, .byte opcode⟩
  | push opcode value =>
    simp only [Instruction.write] at written
    refine ⟨_, rfl, ?_⟩
    split at written
    case isTrue narrow =>
      obtain ⟨-, value, rfl⟩ | format := proper
      · cases written
        rw [if_pos narrow]
        exact (Spells.byte opcode).append (.i1 value)
      · have one := (Opcode.format_single opcode).1.2 narrow
        rw [one] at format
        cases format
    case isFalse wide =>
      cases written
      rw [if_neg wide]
      exact (Spells.byte opcode).append (.int16 value)
  | load opcode constant => exact spells_load written
  | «local» opcode index wide =>
    refine ⟨_, rfl, ?_⟩
    cases wide with
    | true =>
      cases written
      exact (Spells.byte Opcode.wide).append ((Spells.byte opcode).append (.u2 rfl))
    | false =>
      cases written
      exact (Spells.byte opcode).append (.cut (proper.2.resolve_left Bool.false_ne_true))
  | increment index delta wide =>
    refine ⟨_, rfl, ?_⟩
    cases wide with
    | true =>
      cases written
      exact (Spells.byte Opcode.wide).append ((Spells.byte Opcode.iinc).append
        ((Spells.u2 rfl).append (.int16 delta)))
    | false =>
      cases written
      obtain ⟨small, delta, rfl⟩ := proper.resolve_left Bool.false_ne_true
      exact (Spells.byte Opcode.iinc).append ((Spells.cut small).append (.i1 delta))
  | jump opcode target =>
    exact ⟨_, rfl, spells_writeJump (near target) (by omega) written⟩
  | tableSwitch default low high targets =>
    exact spells_tableSwitch near (by omega) default low high targets written
  | lookupSwitch default pairs =>
    have few : pairs.length < 65536 := by
      simp only [writtenSize, size] at fits
      omega
    exact spells_lookupSwitch near (by omega) default few written
  | type opcode name =>
    obtain ⟨index, found, emitted⟩ := Except.bind_eq_ok.1 written
    cases emitted
    obtain rfl := eq_some_of_needOperand found
    exact ⟨_, rfl, (Spells.byte opcode).append (.u2 rfl)⟩
  | field opcode member =>
    obtain ⟨index, found, emitted⟩ := Except.bind_eq_ok.1 written
    cases emitted
    obtain rfl := eq_some_of_needOperand found
    exact ⟨_, rfl, (Spells.byte opcode).append (.u2 rfl)⟩
  | method opcode member isInterface => exact spells_method written
  | invokeDynamic name descriptor bootstrap =>
    obtain ⟨index, found, emitted⟩ := Except.bind_eq_ok.1 written
    cases emitted
    obtain rfl := eq_some_of_needOperand found
    have zero : Spells [.u2 0] (Bytes.u2 0) := .u2 rfl
    exact ⟨_, rfl, (Spells.byte Opcode.invokedynamic).append ((Spells.u2 rfl).append zero)⟩
  | newArray elementType =>
    cases written
    exact ⟨_, rfl, (Spells.byte Opcode.newarray).append (.byte elementType)⟩
  | multiArray name dimensions =>
    obtain ⟨index, found, emitted⟩ := Except.bind_eq_ok.1 written
    cases emitted
    obtain rfl := eq_some_of_needOperand found
    exact ⟨_, rfl, (Spells.byte Opcode.multianewarray).append
      ((Spells.u2 rfl).append (.byte dimensions))⟩

end Instruction

end ClassRenaming
