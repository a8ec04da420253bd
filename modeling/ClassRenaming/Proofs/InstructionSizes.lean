import ClassRenaming.Code.Writing
import ClassRenaming.Proofs.LayoutMap
import ClassRenaming.Proofs.ReadClasses

/-!
The sizes of instructions. What an instruction was read off, what is written of it and the room that
a layout leaves for it are told by one size, and old offsets go where their instructions go.
-/

namespace ClassRenaming

/-! What is left of the bytes. -/

def LeavesEnd {α : Type} (reader : Reader α) : Prop :=
  ∀ ⦃bytes : Bytes⦄ ⦃value : α⦄ ⦃rest : Bytes⦄, reader bytes = .ok (value, rest) → rest <:+ bytes

namespace LeavesEnd

variable {α β : Type} {reader : Reader α}

theorem pure {value : α} : LeavesEnd (pure value) := by
  intro bytes found rest done
  obtain ⟨-, rfl⟩ := Reader.pure_eq_ok.1 done
  exact List.suffix_rfl

theorem lift {action : Except FormatError α} : LeavesEnd (liftM action) := by
  intro bytes found rest done
  obtain ⟨-, rfl⟩ := Reader.lift_eq_ok.1 done
  exact List.suffix_rfl

theorem throw {cause : FormatError} : LeavesEnd (throw cause : Reader α) := by
  intro bytes found rest done
  cases done

theorem bind {next : α → Reader β} (first : LeavesEnd reader)
    (later : ∀ value, LeavesEnd (next value)) : LeavesEnd (reader >>= next) := by
  intro bytes found rest done
  obtain ⟨value, middle, here, there⟩ := Reader.bind_eq_ok.1 done
  exact (later value there).trans (first here)

theorem ite {condition : Prop} [Decidable condition] {other : Reader α} (yes : LeavesEnd reader)
    (no : LeavesEnd other) : LeavesEnd (if condition then reader else other) := by
  split
  · exact yes
  · exact no

theorem discard (first : LeavesEnd reader) : LeavesEnd (discard reader) := by
  intro bytes found rest done
  have mapped : (Function.const α () <$> reader) bytes = .ok (found, rest) := done
  rw [← bind_pure_comp] at mapped
  exact bind first (fun _ => pure) mapped

theorem u1 : LeavesEnd Reader.u1 := by
  intro bytes value rest done
  unfold Reader.u1 at done
  split at done <;> cases done
  exact List.suffix_cons _ _

theorem u2 : LeavesEnd Reader.u2 := by
  intro bytes value rest done
  unfold Reader.u2 at done
  split at done <;> cases done
  exact ⟨[_, _], rfl⟩

theorem u4 : LeavesEnd Reader.u4 := by
  intro bytes value rest done
  unfold Reader.u4 at done
  split at done <;> cases done
  exact ⟨[_, _, _, _], rfl⟩

theorem take (count : Nat) : LeavesEnd (Reader.take count) := by
  intro bytes taken rest done
  unfold Reader.take at done
  split at done
  case h_1 pair here =>
    cases done
    exact ⟨_, (Reader.append_of_splitExact here).1.symm⟩
  case h_2 => cases done

theorem many (each : LeavesEnd reader) (count : Nat) : LeavesEnd (Reader.many count reader) := by
  induction count with
  | zero => exact pure
  | succ count ih => exact each.bind fun _ => ih.bind fun _ => pure

end LeavesEnd

namespace Instruction

variable {length offset : Nat}

theorem leavesEnd_readTarget (far : Bool) : LeavesEnd (readTarget length offset far) := by
  have rest (delta : Int) : LeavesEnd (do
      let target : Int := offset + delta
      if target < 0 ∨ (length : Int) ≤ target then throw (.invalidCodeOffset offset target)
      return target.toNat) := .ite (.bind .throw fun _ => .pure) .pure
  cases far with
  | true => exact LeavesEnd.u4.bind fun _ => rest _
  | false => exact LeavesEnd.u2.bind fun _ => rest _

theorem leavesEnd_remaining : LeavesEnd remaining := by
  intro bytes found rest done
  cases done
  exact List.suffix_rfl

theorem leavesEnd_readTableSwitch : LeavesEnd (readTableSwitch length offset) := by
  refine (LeavesEnd.take _).discard.bind fun _ => (leavesEnd_readTarget true).bind fun _ => ?_
  refine LeavesEnd.u4.bind fun _ => LeavesEnd.u4.bind fun _ => ?_
  refine .ite (.bind .throw fun _ => ?_) ?_
  all_goals
    refine leavesEnd_remaining.bind fun _ => .ite (.bind .throw fun _ => ?_) ?_
    all_goals exact ((leavesEnd_readTarget true).many _).bind fun _ => .pure

theorem leavesEnd_readLookupSwitch : LeavesEnd (readLookupSwitch length offset) := by
  refine (LeavesEnd.take _).discard.bind fun _ => (leavesEnd_readTarget true).bind fun _ => ?_
  refine LeavesEnd.u4.bind fun _ => leavesEnd_remaining.bind fun _ => ?_
  have pair : LeavesEnd (do return ((← Reader.u4).toInt32, ← readTarget length offset true)) :=
    LeavesEnd.u4.bind fun _ => (leavesEnd_readTarget true).bind fun _ => .pure
  exact .ite (.bind .throw fun _ => (pair.many _).bind fun _ => .pure)
    ((pair.many _).bind fun _ => .pure)

theorem leavesEnd_readWide : LeavesEnd (readWide offset) := by
  refine LeavesEnd.u1.bind fun _ => ?_
  split
  · exact LeavesEnd.u2.bind fun _ => .pure
  · exact LeavesEnd.u2.bind fun _ => LeavesEnd.u2.bind fun _ => .pure
  · exact .throw

theorem leavesEnd_takeClassName (pool : ConstantPool) : LeavesEnd pool.takeClassName :=
  LeavesEnd.u2.bind fun _ => .lift

theorem leavesEnd_read (pool : ConstantPool) : LeavesEnd (read pool length offset) := by
  refine LeavesEnd.u1.bind fun opcode => ?_
  split
  case h_1 => exact .throw
  case h_2 => exact .pure
  case h_3 => exact LeavesEnd.u1.bind fun _ => .pure
  case h_4 => exact LeavesEnd.u2.bind fun _ => .pure
  case h_5 => exact LeavesEnd.u1.bind fun _ => LeavesEnd.lift.bind fun _ => .pure
  case h_6 => exact LeavesEnd.u2.bind fun _ => LeavesEnd.lift.bind fun _ => .pure
  case h_7 => exact LeavesEnd.u1.bind fun _ => .pure
  case h_8 => exact LeavesEnd.u1.bind fun _ => LeavesEnd.u1.bind fun _ => .pure
  case h_9 => exact (leavesEnd_readTarget false).bind fun _ => .pure
  case h_10 => exact (leavesEnd_readTarget true).bind fun _ => .pure
  case h_11 => exact leavesEnd_readTableSwitch
  case h_12 => exact leavesEnd_readLookupSwitch
  case h_13 | h_14 => exact LeavesEnd.u2.bind fun _ => LeavesEnd.lift.bind fun _ => .pure
  case h_15 | h_16 =>
    exact LeavesEnd.u2.bind fun _ => LeavesEnd.lift.bind fun _ =>
      (LeavesEnd.take _).discard.bind fun _ => .pure
  case h_17 => exact (leavesEnd_takeClassName pool).bind fun _ => .pure
  case h_18 => exact LeavesEnd.u1.bind fun _ => .pure
  case h_19 => exact leavesEnd_readWide
  case h_20 => exact (leavesEnd_takeClassName pool).bind fun _ => LeavesEnd.u1.bind fun _ => .pure

theorem rest_eq_drop {pool : ConstantPool} {bytes rest : Bytes} {instruction : Instruction}
    (done : read pool length offset bytes = .ok (instruction, rest)) :
    rest = bytes.drop (instruction.size offset) ∧ instruction.size offset ≤ bytes.length := by
  have front := leavesEnd_read pool done
  have count := (gives_read pool length offset done).2
  have shorter := front.length_le
  have size : instruction.size offset = bytes.length - rest.length := by omega
  rw [size]
  exact ⟨List.suffix_iff_eq_drop.1 front, by omega⟩

end Instruction

namespace Code

variable {pool : ConstantPool}

theorem read_of_mem {length steps offset : Nat} {bytes : Bytes} {instructions : List Placed}
    (done : readInstructions pool length steps offset bytes = .ok instructions) {placed : Placed}
    (member : placed ∈ instructions) : ∃ before, placed.offset = offset + before ∧
      Instruction.read pool length placed.offset (bytes.drop before) = .ok (placed.instruction,
        bytes.drop (before + placed.instruction.size placed.offset)) := by
  induction steps generalizing offset bytes instructions with
  | zero =>
    cases bytes with
    | nil =>
      cases done
      cases member
    | cons b bytes => cases done
  | succ steps ih =>
    cases bytes with
    | nil =>
      cases done
      cases member
    | cons b bytes =>
      rw [readInstructions] at done
      · split at done
        · cases done
        case h_2 instruction rest here =>
          split at done
          · cases done
          case h_2 others there =>
            cases done
            obtain ⟨rfl, enough⟩ := Instruction.rest_eq_drop here
            rcases List.mem_cons.1 member with rfl | member
            · exact ⟨0, rfl, by simpa using here⟩
            · obtain ⟨before, behind, read⟩ := ih there member
              refine ⟨instruction.size offset + before, by omega, ?_⟩
              rwa [List.drop_drop, List.drop_drop, ← Nat.add_assoc] at read
      · simp

theorem readInstructions_of_read {info : Bytes} {code : Code} (done : read pool info = .ok code) :
    code.length ≤ maxLength ∧ code.length ≤ (info.drop 8).length ∧
      readInstructions pool code.length code.length 0 ((info.drop 8).take code.length) =
        .ok code.instructions := by
  have done := Reader.all_eq_ok.1 done
  obtain ⟨maxStack, behind, stack, done⟩ := Reader.bind_eq_ok.1 done
  obtain ⟨maxLocals, further, locals, done⟩ := Reader.bind_eq_ok.1 done
  obtain ⟨size, body, sized, done⟩ := Reader.bind_eq_ok.1 done
  dsimp only at done
  have two := Gives.u2 stack
  have more := Gives.u2 locals
  have four := Gives.u4 sized
  have front := ((LeavesEnd.u4 sized).trans (LeavesEnd.u2 locals)).trans (LeavesEnd.u2 stack)
  have start : body = info.drop 8 := by
    have shorter := front.length_le
    rw [List.suffix_iff_eq_drop.1 front]
    congr 1
    omega
  split at done
  case isTrue => cases done
  case isFalse fits =>
    obtain ⟨bytecode, rest, taken, done⟩ := Reader.bind_eq_ok.1 done
    obtain ⟨instructions, _, lifted, done⟩ := Reader.bind_eq_ok.1 done
    obtain ⟨each, rfl⟩ := Reader.lift_eq_ok.1 lifted
    obtain ⟨_, _, -, done⟩ := Reader.bind_eq_ok.1 done
    obtain ⟨handlers, _, -, done⟩ := Reader.bind_eq_ok.1 done
    obtain ⟨attributes, _, -, done⟩ := Reader.bind_eq_ok.1 done
    obtain ⟨rfl, -⟩ := Reader.pure_eq_ok.1 done
    unfold Reader.take at taken
    split at taken
    case h_1 pair here =>
      cases taken
      obtain ⟨parts, length⟩ := Reader.append_of_splitExact here
      rw [← start, parts]
      refine ⟨Nat.not_lt.1 fun long => fits (.inr long), by simp [length], ?_⟩
      dsimp only
      rwa [List.take_left' length]
    case h_2 => cases taken

end Code

theorem Tiles.exists_span {start stop offset : Nat} {instructions : List Placed}
    (tiles : Tiles start instructions stop) (above : start ≤ offset) (below : offset < stop) :
    ∃ placed ∈ instructions, placed.offset ≤ offset ∧
      offset < placed.offset + placed.instruction.size placed.offset := by
  induction instructions generalizing start with
  | nil =>
    have met : start = stop := tiles
    omega
  | cons placed rest ih =>
    obtain ⟨rfl, later⟩ := tiles
    rcases Nat.lt_or_ge offset (placed.offset + placed.instruction.size placed.offset) with
      inside | behind
    · exact ⟨placed, List.mem_cons_self, above, inside⟩
    · obtain ⟨other, member, span⟩ := ih later behind
      exact ⟨other, List.mem_cons_of_mem _ member, span⟩

namespace Layout

def items (code : Code) (operands : List (Option UInt16)) (layout : Layout) :
    List ((Placed × Option UInt16) × Nat) :=
  (code.instructions.zip operands).zip layout.starts

variable {code : Code} {operands : List (Option UInt16)} {layout : Layout}

theorem move_end_of_place {move : Nat → Nat} {start stop position : Nat}
    {instructions : List Placed} {operands : List (Option UInt16)}
    (same : operands.length = instructions.length) (tiles : Tiles start instructions stop)
    (starts : (place position (instructions.zip operands)).1.map (·.1) =
      instructions.map fun placed => move placed.offset)
    (final : move stop = (place position (instructions.zip operands)).2) :
    move start = position ∧ ∀ item ∈ (instructions.zip operands).zip
        ((place position (instructions.zip operands)).1.map (·.1)),
      move (item.1.1.offset + item.1.1.instruction.size item.1.1.offset) =
        item.2 + item.1.1.instruction.writtenSize item.1.2 item.2 := by
  induction instructions generalizing start position operands with
  | nil =>
    obtain rfl : start = stop := tiles
    exact ⟨final, by simp⟩
  | cons placed rest ih =>
    cases operands with
    | nil => cases same
    | cons operand operands =>
      obtain ⟨rfl, later⟩ := tiles
      simp only [List.zip_cons_cons, place, List.map_cons, List.cons.injEq] at starts final ⊢
      obtain ⟨here, there⟩ := ih (Nat.succ.inj same) later starts.2 final
      refine ⟨starts.1.symm, fun item member => ?_⟩
      rcases List.mem_cons.1 member with rfl | member
      · exact here
      · exact there item member

theorem move_inside_of_compute (same : operands.length = code.instructions.length)
    (tiles : Tiles 0 code.instructions code.length) (done : compute code operands = .ok layout)
    {item : (Placed × Option UInt16) × Nat} (member : item ∈ items code operands layout)
    {inside : Nat} (within : inside < item.1.1.instruction.size item.1.1.offset) :
    layout.move (item.1.1.offset + inside) =
      item.2 + min inside (item.1.1.instruction.writtenSize item.1.2 item.2 - 1) := by
  have spans : code.spans = code.instructions.map fun placed =>
      (placed, placed.offset + placed.instruction.size placed.offset) := zip_ends_of_tiles tiles
  have moves := moves_of_moveSpans (Array.replicate (code.length + 1) 0) 0 same tiles (by simp)
  unfold compute at done
  generalize place 0 (code.instructions.zip operands) = placement at done moves
  obtain ⟨places, length⟩ := placement
  dsimp only at done moves
  split at done
  · cases done
  cases done
  rw [← spans] at moves
  rw [items, List.zip_map_right] at member
  obtain ⟨⟨pair, place⟩, among, rfl⟩ := List.mem_map.1 member
  obtain ⟨size, found⟩ := (List.forall₂_iff_zip.1 moves).2 among
  obtain ⟨before, found⟩ := found inside within
  simp only [move, Prod.map_apply, id_eq, Array.getD_eq_getD_getElem?]
  rw [Array.getElem?_setIfInBounds_ne (by omega), ← size]
  exact congrArg (Option.getD · length) found

theorem exists_start (same : operands.length = code.instructions.length)
    (covers : layout.Covers code operands) {pair : Placed × Option UInt16}
    (member : pair ∈ code.instructions.zip operands) :
    ∃ start, (pair, start) ∈ items code operands layout := by
  have length : layout.starts.length = code.instructions.length := by
    rw [covers.moves, List.length_map]
  have whole : (items code operands layout).map Prod.fst = code.instructions.zip operands := by
    refine List.map_fst_zip ?_
    rw [List.length_zip, same, length]
    omega
  rw [← whole] at member
  obtain ⟨⟨pair, start⟩, inside, rfl⟩ := List.mem_map.1 member
  exact ⟨start, inside⟩

theorem exists_item (same : operands.length = code.instructions.length)
    (covers : layout.Covers code operands) {placed : Placed} (member : placed ∈ code.instructions) :
    ∃ operand start, ((placed, operand), start) ∈ items code operands layout := by
  have pairs : (code.instructions.zip operands).map Prod.fst = code.instructions :=
    List.map_fst_zip (Nat.le_of_eq same.symm)
  rw [← pairs] at member
  obtain ⟨⟨placed, operand⟩, inside, rfl⟩ := List.mem_map.1 member
  exact ⟨operand, exists_start same covers inside⟩

theorem move_end_of_covers (same : operands.length = code.instructions.length)
    (tiles : Tiles 0 code.instructions code.length) (covers : layout.Covers code operands)
    {item : (Placed × Option UInt16) × Nat} (member : item ∈ items code operands layout) :
    layout.move (item.1.1.offset + item.1.1.instruction.size item.1.1.offset) =
      item.2 + item.1.1.instruction.writtenSize item.1.2 item.2 := by
  have starts := covers.starts.symm.trans covers.moves
  have final := covers.stop.trans covers.length
  rw [items, covers.starts] at member
  exact (move_end_of_place same tiles starts final).2 item member

theorem move_le_succ (same : operands.length = code.instructions.length)
    (tiles : Tiles 0 code.instructions code.length) (done : compute code operands = .ok layout)
    {offset : Nat} (below : offset < code.length) : layout.move offset ≤ layout.move (offset + 1) := by
  have covers := covers_compute same tiles done
  obtain ⟨placed, member, above, inside⟩ := tiles.exists_span (Nat.zero_le offset) below
  obtain ⟨operand, start, listed⟩ := exists_item same covers member
  obtain ⟨before, rfl⟩ := Nat.exists_eq_add_of_le above
  have within : before < placed.instruction.size placed.offset := by omega
  have here := move_inside_of_compute same tiles done listed within
  have pos := placed.instruction.size_pos start
  dsimp only at here
  rcases Nat.lt_or_eq_of_le (Nat.succ_le_of_lt inside) with further | last
  · have beside : before + 1 < placed.instruction.size placed.offset := by omega
    have next := move_inside_of_compute same tiles done listed beside
    dsimp only at next
    rw [Nat.add_assoc, here, next]
    omega
  · have next := move_end_of_covers same tiles covers listed
    dsimp only at next
    rw [here, Nat.add_one, last, next, Instruction.writtenSize]
    omega

theorem move_mono (same : operands.length = code.instructions.length)
    (tiles : Tiles 0 code.instructions code.length) (done : compute code operands = .ok layout)
    {first second : Nat} (order : first ≤ second) (inside : second ≤ code.length) :
    layout.move first ≤ layout.move second := by
  induction second, order using Nat.le_induction with
  | base => exact Nat.le_refl _
  | succ second _ ih =>
    exact (ih (by omega)).trans (move_le_succ same tiles done (by omega))

/-- What reader, writer and layout say of the instructions of a body, which were read off
`bytecode`. -/
structure Agrees (pool : ConstantPool) (bytecode : Bytes) (code : Code)
    (operands : List (Option UInt16)) (layout : Layout) : Prop where
  whole : bytecode.length = code.length
  tiles : Tiles 0 code.instructions code.length
  /-- Reading takes as many bytes as the size says. -/
  read : ∀ placed ∈ code.instructions,
    Instruction.read pool code.length placed.offset (bytecode.drop placed.offset) =
      .ok (placed.instruction,
        bytecode.drop (placed.offset + placed.instruction.size placed.offset))
  starts : layout.starts = code.instructions.map fun placed => layout.move placed.offset
  stop : layout.move code.length = layout.length
  /-- Writing gives as many bytes as the layout left room for. -/
  written : ∀ item ∈ items code operands layout, ∀ bytes,
    item.1.1.instruction.write layout.move item.2 item.1.2 = .ok bytes →
      bytes.length = item.1.1.instruction.writtenSize item.1.2 item.2
  kept : ∀ item ∈ items code operands layout, item.2 % 4 = item.1.1.offset % 4 →
    item.1.1.instruction.widens item.1.2 = false →
      item.1.1.instruction.writtenSize item.1.2 item.2 =
        item.1.1.instruction.size item.1.1.offset
  inside : ∀ item ∈ items code operands layout, ∀ offset, item.1.1.offset ≤ offset →
    offset < item.1.1.offset + item.1.1.instruction.size item.1.1.offset →
      item.2 ≤ layout.move offset ∧
        layout.move offset < item.2 + item.1.1.instruction.writtenSize item.1.2 item.2
  monotone : ∀ first second, first ≤ second → second ≤ code.length →
    layout.move first ≤ layout.move second
  strict : ∀ first ∈ code.instructions, ∀ second ∈ code.instructions,
    first.offset < second.offset → layout.move first.offset < layout.move second.offset
  still : (∀ item ∈ items code operands layout, item.1.1.instruction.widens item.1.2 = false) →
    ∀ offset ≤ code.length, layout.move offset = offset

end Layout

theorem Instruction.size_mod (instruction : Instruction) {first second : Nat}
    (same : first % 4 = second % 4) : instruction.size first = instruction.size second := by
  have padded : padding first = padding second := by
    unfold padding
    omega
  cases instruction <;> simp [size, padded]

/-- Every layout of a body that was read agrees with how it was read and with how it is written. -/
theorem Layout.agrees_of_compute {pool : ConstantPool} {info : Bytes} {code : Code}
    {operands : List (Option UInt16)} {layout : Layout} (read : Code.read pool info = .ok code)
    (same : operands.length = code.instructions.length)
    (done : Layout.compute code operands = .ok layout) :
    layout.Agrees pool ((info.drop 8).take code.length) code operands := by
  have proper : code.Proper pool.depth := (Code.gives_readBody pool).all read
  obtain ⟨short, room, each⟩ := Code.readInstructions_of_read read
  have tiles := proper.tiles
  have covers := covers_compute same tiles done
  constructor
  case whole => exact List.length_take_of_le room
  case tiles => exact tiles
  case read =>
    intro placed member
    obtain ⟨before, offset, here⟩ := Code.read_of_mem each member
    rw [Nat.zero_add] at offset
    rwa [← offset] at here
  case starts => exact covers.moves
  case stop => exact covers.stop
  case written => exact fun item _ bytes => Instruction.length_write
  case kept =>
    intro item _ aligned narrow
    rw [Instruction.writtenSize, narrow, item.1.1.instruction.size_mod aligned]
    rfl
  case inside =>
    intro item member offset above below
    obtain ⟨inside, rfl⟩ := Nat.exists_eq_add_of_le above
    have pos := item.1.1.instruction.size_pos item.2
    rw [move_inside_of_compute same tiles done member (by omega), Instruction.writtenSize]
    omega
  case monotone => exact fun first second => move_mono same tiles done
  case strict =>
    exact fun first one second other before => covers.move_lt_move same tiles one other before
  case still =>
    intro narrow offset inside
    have each : List.Forall₂ (fun placed operand => placed.instruction.widens operand = false)
        code.instructions operands := by
      refine List.forall₂_iff_zip.2 ⟨same.symm, fun {placed operand} member => ?_⟩
      obtain ⟨start, listed⟩ := exists_start same covers member
      exact narrow _ listed
    obtain ⟨other, computed, -, -, still⟩ := compute_still same tiles short each
    obtain rfl : layout = other := Except.ok.inj (done.symm.trans computed)
    exact still offset inside

/-- The body that loads a number, drops it and switches to its return. -/
def switchInfo : Bytes :=
  [0, 1, 0, 0, 0, 0, 0, 25, 0x12, 1, 0x57, 0x03, 0xAA, 0, 0, 0, 0, 0, 0, 20, 0, 0, 0, 0, 0, 0, 0, 0,
    0, 0, 0, 20, 0xB1, 0, 0, 0, 0]

def numberPool : ConstantPool := ⟨#[.unusable, .integer 7], #[]⟩

/-- A number that has moved far back in the pool is loaded by the longer opcode, and the switch then
has less padding. -/
theorem switchInfo_agrees : ∃ code layout, Code.read numberPool switchInfo = .ok code ∧
    Layout.compute code [some 256, none, none, none, none] = .ok layout ∧
      layout.starts = [0, 3, 4, 5, 24] ∧
        layout.Agrees numberPool ((switchInfo.drop 8).take code.length) code
          [some 256, none, none, none, none] := by
  have runs : (do
      let code ← Code.read numberPool switchInfo
      let layout ← Layout.compute code [some 256, none, none, none, none]
      return (code.instructions.length, layout.starts)) = .ok (5, [0, 3, 4, 5, 24]) := by
    decide +kernel
  obtain ⟨code, read, runs⟩ := Except.bind_eq_ok.1 runs
  obtain ⟨layout, done, runs⟩ := Except.bind_eq_ok.1 runs
  obtain ⟨count, starts⟩ := Prod.mk.inj (Except.ok.inj runs)
  exact ⟨code, layout, read, done, starts, Layout.agrees_of_compute read count.symm done⟩

end ClassRenaming
