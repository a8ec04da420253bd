import ClassRenaming.Proofs.LayoutMap
import ClassRenaming.Proofs.StoredAnnotations

/-!
An instruction is read back from its bytes, with its targets moved. What the bytes do not say, the
opcode does: which operands follow it, and how wide they are.
-/

namespace ClassRenaming

open Reader

variable {depth : Nat} {pool : ConstantPool} {move : Nat → Nat} {length position : Nat}

namespace Opcode

theorem format_single : ∀ opcode : UInt8,
    (format opcode = some .byte ↔ opcode = bipush) ∧
    (format opcode = some .narrowConstant ↔ opcode = ldc) ∧
    (format opcode = some .farBranch ↔ opcode = gotoW ∨ opcode = jsrW) ∧
    (format opcode = some .interfaceMethod ↔ opcode = invokeinterface) :=
  forall_byte (by decide +kernel)

end Opcode

namespace Instruction

/-- An instruction as one is read: the opcode has the form of its operands, these fit the bytes they
are written in, and constants nest no deeper than `depth`. -/
def Proper (depth : Nat) : Instruction → Prop
  | simple opcode => Opcode.format opcode = some .none
  | push opcode value =>
    Opcode.format opcode = some .byte ∧ (∃ byte : Int8, value = byte.toInt16) ∨
      Opcode.format opcode = some .short
  | load opcode constant =>
    (Opcode.format opcode = some .narrowConstant ∨ Opcode.format opcode = some .wideConstant) ∧
      constant.nesting ≤ depth
  | .local opcode index wide => Opcode.format opcode = some .local ∧ (wide = true ∨ index.toNat < 256)
  | increment index delta wide =>
    wide = true ∨ index.toNat < 256 ∧ ∃ byte : Int8, delta = byte.toInt16
  | jump opcode _ =>
    Opcode.format opcode = some .branch ∨ Opcode.format opcode = some .farBranch
  | tableSwitch _ low high targets =>
    ¬high < low ∧ (high.toInt - low.toInt + 1).toNat = targets.length
  | lookupSwitch .. => True
  | type opcode _ => Opcode.format opcode = some .type
  | field opcode _ => Opcode.format opcode = some .field
  | method opcode _ isInterface =>
    Opcode.format opcode = some .method ∨
      Opcode.format opcode = some .interfaceMethod ∧ isInterface = true
  | invokeDynamic _ _ bootstrap => depth ≠ 0 ∧ Constant.listNesting bootstrap.arguments ≤ depth
  | newArray _ | multiArray .. => True

theorem reads_near {target : Nat} (inside : target < length)
    (low : -32768 ≤ (target : Int) - position) (high : (target : Int) - position ≤ 32767) :
    Reads (readTarget length position false)
      (Bytes.u2 (Int16.ofInt ((target : Int) - position)).toUInt16) target := by
  have back : (Int16.ofInt ((target : Int) - position)).toUInt16.toInt16.toInt =
      (target : Int) - position := Int16.toInt_ofInt_of_le low (by omega)
  have there : (position : Int) + ((target : Int) - position) = target := by omega
  unfold readTarget
  refine (Reads.u2 _).last (Reads.skip (.pure _) ?_)
  rw [back]
  dsimp only
  rw [there, if_neg (by omega)]
  exact .pure _

theorem reads_far {target : Nat} (inside : target < length) (here : position < length)
    (small : length < 65536) :
    Reads (readTarget length position true) (farDistance ((target : Int) - position)) target := by
  have back : (Int32.ofInt ((target : Int) - position)).toUInt32.toInt32.toInt =
      (target : Int) - position := Int32.toInt_ofInt_of_le (by omega) (by omega)
  have there : (position : Int) + ((target : Int) - position) = target := by omega
  unfold readTarget
  refine (Reads.u4 _).last (Reads.skip (.pure _) ?_)
  rw [back]
  dsimp only
  rw [there, if_neg (by omega)]
  exact .pure _

theorem reads_remaining {α : Type} {next : Nat → Reader α} {bytes : Bytes} {value : α}
    (reads : ∀ count, bytes.length ≤ count → Reads (next count) bytes value) :
    Reads (remaining >>= next) bytes value := by
  intro rest
  exact reads (bytes ++ rest).length (by simp) rest

theorem reads_padding (position : Nat) :
    Reads (take (padding position)) (List.replicate (padding position) 0)
      (List.replicate (padding position) 0) :=
  Reads.take List.length_replicate

theorem reads_farTargets {targets : List Nat} (inside : ∀ target ∈ targets, move target < length)
    (here : position < length) (small : length < 65536) :
    Reads (many targets.length (readTarget length position true))
      (targets.flatMap fun target => farDistance (move target - position)) (targets.map move) := by
  induction targets with
  | nil => exact .pure _
  | cons target targets ih =>
    have first := reads_far (inside target (by simp)) here small
    exact first.bind ((ih fun other member => inside other (by simp [member])).last (.pure _))

theorem reads_pairs {pairs : List (Int32 × Nat)} (inside : ∀ pair ∈ pairs, move pair.2 < length)
    (here : position < length) (small : length < 65536) :
    Reads (many pairs.length do return ((← Reader.u4).toInt32, ← readTarget length position true))
      (pairs.flatMap fun (key, target) =>
        Bytes.u4 key.toUInt32 ++ farDistance (move target - position))
      (pairs.map fun (key, target) => (key, move target)) := by
  induction pairs with
  | nil => exact .pure _
  | cons pair pairs ih =>
    have target := reads_far (inside pair (by simp)) here small
    have first : Reads (do return ((← Reader.u4).toInt32, ← readTarget length position true))
        (Bytes.u4 pair.1.toUInt32 ++ farDistance (move pair.2 - position)) (pair.1, move pair.2) :=
      (Reads.u4 _).bind (target.last (.pure _))
    exact first.bind ((ih fun other member => inside other (by simp [member])).last (.pure _))

theorem length_farDistance (distance : Int) : (farDistance distance).length = 4 := rfl

theorem length_farTargets (targets : List Nat) :
    (targets.flatMap fun target => farDistance (move target - position)).length =
      4 * targets.length := by
  induction targets with
  | nil => rfl
  | cons target targets ih =>
    simp only [List.flatMap_cons, List.length_append, ih, length_farDistance, List.length_cons]
    omega

theorem length_pairs (pairs : List (Int32 × Nat)) :
    (pairs.flatMap fun (key, target) =>
      Bytes.u4 key.toUInt32 ++ farDistance (move target - position)).length = 8 * pairs.length := by
  induction pairs with
  | nil => rfl
  | cons pair pairs ih =>
    simp only [List.flatMap_cons, List.length_append, ih, length_farDistance, List.length_cons,
      Bytes.length_u4]
    omega

variable {operand : Option UInt16} {bytes : Bytes}

theorem reads_tableSwitch {default : Nat} {low high : Int32} {targets : List Nat}
    (order : ¬high < low) (count : (high.toInt - low.toInt + 1).toNat = targets.length)
    (inside : ∀ target ∈ default :: targets, move target < length) (here : position < length)
    (small : length < 65536) :
    Reads (readTableSwitch length position)
      (List.replicate (padding position) 0 ++ (farDistance (move default - position) ++
        (Bytes.u4 low.toUInt32 ++ (Bytes.u4 high.toUInt32 ++
          targets.flatMap fun target => farDistance (move target - position)))))
      (.tableSwitch (move default) low high (targets.map move)) := by
  have each : ∀ target ∈ targets, move target < length :=
    fun target member => inside target (List.mem_cons_of_mem _ member)
  have others := reads_farTargets each here small
  unfold readTableSwitch
  refine (reads_padding position).discard.bind ?_
  refine (reads_far (inside default (by simp)) here small).bind ?_
  refine (Reads.u4 _).bind ((Reads.u4 _).bind ?_)
  dsimp only
  rw [Int32.toInt32_toUInt32, Int32.toInt32_toUInt32, if_neg order, count]
  refine reads_remaining fun left enough => ?_
  rw [length_farTargets] at enough
  rw [if_neg (by omega)]
  exact others.last (.pure _)

theorem reads_lookupSwitch {default : Nat} {pairs : List (Int32 × Nat)}
    (inside : ∀ target ∈ default :: pairs.map (·.2), move target < length) (here : position < length)
    (small : length < 65536) (few : pairs.length < 65536) :
    Reads (readLookupSwitch length position)
      (List.replicate (padding position) 0 ++ (farDistance (move default - position) ++
        (Bytes.u4 pairs.length.toUInt32 ++ pairs.flatMap fun (key, target) =>
          Bytes.u4 key.toUInt32 ++ farDistance (move target - position))))
      (.lookupSwitch (move default) (pairs.map fun (key, target) => (key, move target))) := by
  have each : ∀ pair ∈ pairs, move pair.2 < length :=
    fun pair member => inside pair.2 (List.mem_cons_of_mem _ (List.mem_map.2 ⟨pair, member, rfl⟩))
  have others := reads_pairs each here small
  have count : pairs.length.toUInt32.toInt32.toInt = pairs.length :=
    Int32.toInt_ofNat_of_lt (by omega)
  unfold readLookupSwitch
  refine (reads_padding position).discard.bind ?_
  refine (reads_far (inside default (by simp)) here small).bind ?_
  refine (Reads.u4 _).bind ?_
  dsimp only
  rw [count]
  refine reads_remaining fun left enough => ?_
  rw [length_pairs] at enough
  rw [if_neg (by omega), Int.toNat_natCast]
  exact others.last (.pure _)

theorem interns_operand {instruction : Instruction} (proper : instruction.Proper depth)
    (within : depth ≤ ConstantPool.dynamicDepth) :
    Interns depth instruction.operand fun pool operand => instruction.Refers pool operand := by
  cases instruction with
  | load opcode constant =>
    refine (interns_constant constant proper.2).map fun pool _ index found => ?_
    exact ⟨index, rfl, found _ (proper.2.trans within)⟩
  | type opcode name =>
    exact (interns_className _).map fun pool _ index found => ⟨index, rfl, found⟩
  | multiArray name dimensions =>
    exact (interns_className _).map fun pool _ index found => ⟨index, rfl, found⟩
  | field opcode member =>
    exact (interns_fieldRef _).map fun pool _ index found => ⟨index, rfl, found⟩
  | method opcode member isInterface =>
    exact (interns_methodRef _ isInterface).map fun pool _ index found => ⟨index, rfl, found⟩
  | invokeDynamic name descriptor bootstrap =>
    exact (interns_invokeDynamic proper.1 within proper.2).map
      fun pool _ index found => ⟨index, rfl, found⟩
  | _ => exact .pure fun pool _ => rfl

theorem branchTargets_moved (instruction : Instruction) (move : Nat → Nat)
    (operand : Option UInt16) :
    (instruction.moved move operand).branchTargets = instruction.branchTargets.map move := by
  cases instruction <;> simp [moved, branchTargets]

theorem toUInt8_toUInt16 : ∀ byte : UInt8, byte.toInt8.toInt16.toUInt16.toUInt8 = byte :=
  forall_byte (by decide +kernel)

theorem toUInt8_toInt16 (byte : Int8) : byte.toInt16.toUInt16.toUInt8.toInt8 = byte := by
  have same := toUInt8_toUInt16 byte.toUInt8
  rw [Int8.toInt8_toUInt8] at same
  rw [same, Int8.toInt8_toUInt8]

theorem toUInt16_toUInt8 {index : UInt16} (small : index.toNat < 256) :
    index.toUInt8.toUInt16 = index := by
  apply UInt16.toNat_inj.1
  rw [UInt8.toNat_toUInt16, UInt16.toNat_toUInt8]
  omega

theorem eq_some_of_needOperand {index : UInt16} (found : needOperand operand = .ok index) :
    operand = some index := by
  cases operand <;> cases found
  rfl

theorem length_writeJump {opcode : UInt8} {target : Nat}
    (written : writeJump opcode position target = .ok bytes) :
    bytes.length = if opcode = Opcode.gotoW ∨ opcode = Opcode.jsrW then 5 else 3 := by
  simp only [writeJump] at written
  split at written
  case isTrue far =>
    cases written
    rw [if_pos far]
    rfl
  case isFalse near =>
    rw [if_neg near]
    split at written <;> cases written
    rfl

theorem length_write {instruction : Instruction}
    (written : instruction.write move position operand = .ok bytes) :
    bytes.length = instruction.writtenSize operand position := by
  cases instruction with
  | simple opcode =>
    cases written
    rfl
  | push opcode value =>
    simp only [Instruction.write] at written
    split at written
    case isTrue byte =>
      cases written
      simp [writtenSize, size, widens, byte]
    case isFalse short =>
      cases written
      simp [writtenSize, size, widens, short]
  | load opcode constant =>
    obtain ⟨index, found, emitted⟩ := Except.bind_eq_ok.1 written
    obtain rfl := eq_some_of_needOperand found
    split at emitted
    case isTrue long =>
      cases emitted
      simp [writtenSize, size, widens, long]
    case isFalse short =>
      obtain rfl := Decidable.not_not.1 short
      split at emitted
      case isTrue low =>
        cases emitted
        simpa [writtenSize, size, widens] using low
      case isFalse high =>
        cases emitted
        have above : 255 < index := by simpa using high
        simp [writtenSize, size, widens, above]
  | «local» opcode index wide =>
    cases wide <;> cases written <;> rfl
  | increment index delta wide =>
    cases wide <;> cases written <;> rfl
  | jump opcode target =>
    exact length_writeJump written
  | tableSwitch default low high targets =>
    cases written
    simp only [List.cons_append, List.append_assoc, List.length_cons, List.length_append,
      List.length_replicate, length_farDistance, Bytes.length_u4, length_farTargets, writtenSize,
      size, widens, Bool.false_eq_true, if_false]
    omega
  | lookupSwitch default pairs =>
    cases written
    simp only [List.cons_append, List.append_assoc, List.length_cons, List.length_append,
      List.length_replicate, length_farDistance, Bytes.length_u4, length_pairs, writtenSize, size,
      widens, Bool.false_eq_true, if_false]
    omega
  | type opcode name =>
    obtain ⟨index, -, written⟩ := Except.bind_eq_ok.1 written
    cases written
    rfl
  | field opcode member =>
    obtain ⟨index, -, written⟩ := Except.bind_eq_ok.1 written
    cases written
    rfl
  | method opcode member isInterface =>
    obtain ⟨index, -, written⟩ := Except.bind_eq_ok.1 written
    split at written
    case isTrue interface =>
      obtain ⟨count, -, written⟩ := Except.bind_eq_ok.1 written
      cases written
      simp [writtenSize, size, widens, interface]
    case isFalse other =>
      cases written
      simp [writtenSize, size, widens, other]
  | invokeDynamic name descriptor bootstrap =>
    obtain ⟨index, -, written⟩ := Except.bind_eq_ok.1 written
    cases written
    rfl
  | newArray elementType =>
    cases written
    rfl
  | multiArray name dimensions =>
    obtain ⟨index, -, written⟩ := Except.bind_eq_ok.1 written
    cases written
    rfl

/-! What the written bytes of an instruction read as, where the opcode alone does not tell their
form. -/

theorem reads_push {opcode : UInt8} {value : Int16} (proper : (push opcode value).Proper depth)
    (written : (push opcode value).write move position operand = .ok bytes) :
    Reads (Instruction.read pool length position) bytes (push opcode value) := by
  rcases proper with ⟨form, byte, rfl⟩ | form
  · obtain rfl := (Opcode.format_single opcode).1.1 form
    cases written
    refine .tagged (.tagged ?_)
    rw [toUInt8_toInt16]
    exact .pure _
  · have other : opcode ≠ Opcode.bipush := by
      intro same
      rw [(Opcode.format_single opcode).1.2 same] at form
      cases form
    rw [Instruction.write, if_neg other] at written
    cases written
    refine .tagged ?_
    rw [form]
    exact (Reads.u2 _).last (.pure _)

theorem reads_load {opcode : UInt8} {constant : Constant} {index : UInt16}
    (proper : (load opcode constant).Proper depth)
    (found : pool.constant index = .ok constant.normal)
    (written : (load opcode constant).write move position (some index) = .ok bytes) :
    Reads (Instruction.read pool length position) bytes
      ((load opcode constant).moved move (some index)) := by
  obtain ⟨_, ⟨⟩, emitted⟩ := Except.bind_eq_ok.1 written
  have single := (Opcode.format_single opcode).2.1
  split at emitted
  case isTrue other =>
    cases emitted
    have form := proper.1.resolve_left fun narrow => other (single.1 narrow)
    rw [moved, if_neg fun wide => other wide.1]
    refine .tagged ?_
    rw [form]
    exact (Reads.u2 _).last ((Reads.lift found).skip (.pure _))
  case isFalse narrow =>
    obtain rfl := Decidable.not_not.1 narrow
    split at emitted
    case isTrue low =>
      cases emitted
      have short : ¬(some index).getD 0 > 255 := by simpa using low
      rw [moved, if_neg fun wide => short wide.2]
      refine .tagged (.tagged ?_)
      rw [toUInt16_toUInt8 (Nat.lt_succ_of_le (UInt16.le_iff_toNat_le.1 low))]
      exact (Reads.lift found).skip (.pure _)
    case isFalse high =>
      cases emitted
      have long : (some index).getD 0 > 255 := by simpa using high
      rw [moved, if_pos ⟨rfl, long⟩]
      exact .tagged ((Reads.u2 _).last ((Reads.lift found).skip (.pure _)))

theorem reads_jump {opcode : UInt8} {target : Nat} (proper : (jump opcode target).Proper depth)
    (there : move target < length) (here : position < length) (small : length < 65536)
    (written : writeJump opcode position (move target) = .ok bytes) :
    Reads (Instruction.read pool length position) bytes (jump opcode (move target)) := by
  have single := (Opcode.format_single opcode).2.2.1
  simp only [writeJump] at written
  split at written
  case isTrue far =>
    cases written
    refine .tagged ?_
    rw [single.2 far]
    exact (reads_far there here small).last (.pure _)
  case isFalse near =>
    split at written
    case isTrue bounds =>
      cases written
      have form := proper.resolve_right fun far => near (single.1 far)
      refine .tagged ?_
      rw [form]
      exact (reads_near there bounds.1 bounds.2).last (.pure _)
    case isFalse => cases written

theorem reads_method {opcode : UInt8} {member : MemberRef} {isInterface : Bool} {index : UInt16}
    (proper : (method opcode member isInterface).Proper depth)
    (found : pool.memberRef index = .ok (member, isInterface))
    (written : (method opcode member isInterface).write move position (some index) = .ok bytes) :
    Reads (Instruction.read pool length position) bytes (method opcode member isInterface) := by
  obtain ⟨_, ⟨⟩, emitted⟩ := Except.bind_eq_ok.1 written
  have single := (Opcode.format_single opcode).2.2.2
  split at emitted
  case isTrue interface =>
    obtain ⟨count, -, emitted⟩ := Except.bind_eq_ok.1 emitted
    cases emitted
    have form := single.2 interface
    obtain rfl : isInterface = true := by
      rcases proper with plain | ⟨-, same⟩
      · rw [form] at plain
        cases plain
      · exact same
    simp only [List.cons_append]
    refine .tagged ?_
    rw [form]
    have rest : Reads (take 2) [count, 0] [count, 0] := Reads.take rfl
    exact (Reads.u2 _).bind ((Reads.lift found).skip (rest.discard.last (.pure _)))
  case isFalse other =>
    cases emitted
    have form := proper.resolve_right fun interface => other (single.1 interface.1)
    refine .tagged ?_
    rw [form]
    exact (Reads.u2 _).last ((Reads.lift found).skip (.pure _))

theorem reads_write {instruction : Instruction} (proper : instruction.Proper depth)
    (refers : instruction.Refers pool operand)
    (inside : ∀ target ∈ instruction.branchTargets, move target < length) (small : length < 65536)
    (fits : position + instruction.writtenSize operand position ≤ length)
    (written : instruction.write move position operand = .ok bytes) :
    Reads (Instruction.read pool length position) bytes (instruction.moved move operand) ∧
      bytes.length = instruction.writtenSize operand position := by
  have here : position < length := by
    have pos := instruction.size_pos position
    unfold writtenSize at fits
    omega
  refine ⟨?_, length_write written⟩
  cases instruction with
  | simple opcode =>
    cases written
    refine .tagged ?_
    rw [proper]
    exact .pure _
  | push opcode value => exact reads_push proper written
  | load opcode constant =>
    obtain ⟨index, rfl, found⟩ := refers
    exact reads_load proper found written
  | «local» opcode index wide =>
    obtain ⟨form, narrow⟩ := proper
    cases wide with
    | true =>
      cases written
      refine .tagged (.tagged ?_)
      rw [form]
      exact (Reads.u2 _).last (.pure _)
    | false =>
      cases written
      refine .tagged ?_
      rw [form]
      refine .tagged ?_
      rw [toUInt16_toUInt8 (by simpa using narrow)]
      exact .pure _
  | increment index delta wide =>
    cases wide with
    | true =>
      cases written
      exact .tagged (.tagged ((Reads.u2 _).bind ((Reads.u2 _).last (.pure _))))
    | false =>
      cases written
      simp only [Proper, Bool.false_eq_true, false_or] at proper
      obtain ⟨narrow, byte, rfl⟩ := proper
      refine .tagged (.tagged (.tagged ?_))
      rw [toUInt16_toUInt8 narrow, toUInt8_toInt16]
      exact .pure _
  | jump opcode target =>
    exact reads_jump proper (inside target (by simp [branchTargets])) here small written
  | tableSwitch default low high targets =>
    cases written
    simp only [List.cons_append, List.append_assoc]
    exact .tagged (reads_tableSwitch proper.1 proper.2 inside here small)
  | lookupSwitch default pairs =>
    cases written
    simp only [List.cons_append, List.append_assoc]
    have few : pairs.length < 65536 := by
      simp only [writtenSize, size] at fits
      omega
    exact .tagged (reads_lookupSwitch inside here small few)
  | type opcode name =>
    obtain ⟨index, rfl, found⟩ := refers
    cases written
    refine .tagged ?_
    rw [proper]
    exact (reads_takeClassName found).last (.pure _)
  | field opcode member =>
    obtain ⟨index, rfl, found⟩ := refers
    cases written
    refine .tagged ?_
    rw [proper]
    exact (Reads.u2 _).last ((Reads.lift found).skip (.pure _))
  | method opcode member isInterface =>
    obtain ⟨index, rfl, found⟩ := refers
    exact reads_method proper found written
  | invokeDynamic name descriptor bootstrap =>
    obtain ⟨index, rfl, found⟩ := refers
    cases written
    refine .tagged ((Reads.u2 _).bind ((Reads.lift found).skip ?_))
    have zeros : Reads (take 2) [0, 0] [0, 0] := Reads.take rfl
    exact zeros.discard.last (.pure _)
  | newArray elementType =>
    cases written
    exact .tagged (.tagged (.pure _))
  | multiArray name dimensions =>
    obtain ⟨index, rfl, found⟩ := refers
    cases written
    exact .tagged ((reads_takeClassName found).bind (.tagged (.pure _)))

end Instruction

end ClassRenaming
