import ClassRenaming.Proofs.FrameNumbers
import ClassRenaming.Proofs.OffsetSums

/-!
Code offsets stay in their words. In a class that was read, renamed or given new frames no sum of
them leaves 32 bits, and no position that a layout counts up to does; and what is written of
instructions and frames tells the very numbers that it is written from.
-/

namespace ClassRenaming

namespace Instruction

theorem size_le_add (instruction : Instruction) (position offset : Nat) :
    instruction.size position ≤ instruction.size offset + 3 := by
  have few : padding position < 4 := Nat.mod_lt _ (by decide)
  cases instruction with
  | tableSwitch | lookupSwitch =>
    simp only [size]
    omega
  | _ => exact Nat.le_add_right _ _

theorem writtenSize_le (instruction : Instruction) (operand : Option UInt16)
    (position offset : Nat) :
    instruction.writtenSize operand position ≤ 5 * instruction.size offset := by
  have padded := instruction.size_le_add position offset
  have positive := instruction.size_pos offset
  unfold writtenSize
  split <;> omega

end Instruction

namespace Layout

theorem place_le_of_tiles {position start stop : Nat} {instructions : List Placed}
    (tiles : Tiles start instructions stop) (room : position ≤ 5 * start)
    (operands : List (Option UInt16)) :
    ∀ spot ∈ (place position (instructions.zip operands)).1, spot.1 + spot.2 ≤ 5 * stop := by
  induction instructions generalizing position start operands with
  | nil => simp [place]
  | cons placed rest ih =>
    cases operands with
    | nil => simp [place]
    | cons operand operands =>
      obtain ⟨rfl, later⟩ := tiles
      have grown := placed.instruction.writtenSize_le operand position placed.offset
      have behind := later.le
      intro spot member
      rcases List.mem_cons.1 member with rfl | member
      · dsimp only
        omega
      · exact ih later (by omega) operands spot member

theorem mem_place_of_mem_zip {position : Nat} {entries : List (Placed × Option UInt16)}
    {item : (Placed × Option UInt16) × Nat}
    (member : item ∈ entries.zip ((place position entries).1.map (·.1))) :
    (item.2, item.1.1.instruction.writtenSize item.1.2 item.2) ∈ (place position entries).1 := by
  induction entries generalizing position with
  | nil => cases member
  | cons entry rest ih =>
    rcases List.mem_cons.1 member with rfl | member
    · exact List.mem_cons_self
    · exact List.mem_cons_of_mem _ (ih member)

theorem compute_eq_ok {code : Code} {operands : List (Option UInt16)} {layout : Layout}
    (done : compute code operands = .ok layout) :
    layout.starts = (place 0 (code.instructions.zip operands)).1.map (·.1) ∧
      layout.length = (place 0 (code.instructions.zip operands)).2 ∧ layout.length ≤ 65535 := by
  unfold compute at done
  generalize place 0 (code.instructions.zip operands) = placement at done
  obtain ⟨places, length⟩ := placement
  dsimp only at done
  split at done
  · cases done
  case isFalse small =>
    cases done
    exact ⟨rfl, rfl, Nat.not_lt.1 small⟩

end Layout

/-- A body is written exactly: whatever the operands, no position leaves 32 bits where instructions
are laid out, and the bytes of the instructions and of the tables of frames tell the numbers that
they are written from. -/
structure Code.WrittenExactly (code : Code) : Prop where
  positions : ∀ operands : List (Option UInt16),
    ∀ spot ∈ (Layout.place 0 (code.instructions.zip operands)).1, spot.1 + spot.2 < 4294967296
  instructions : ∀ operands layout, Layout.compute code operands = .ok layout →
    ∀ item ∈ layout.items code operands, ∀ bytes,
      item.1.1.instruction.write layout.move item.2 item.1.2 = .ok bytes →
        ∃ words, item.1.1.instruction.words layout.move item.2 item.1.2 = .ok words ∧
          Word.Spells words bytes
  frames : ∀ frames, .stackMap frames ∈ code.attributes → ∀ move pool bytes after,
    Frame.writeTable move frames pool = .ok (bytes, after) →
      FramePart.Spelled move (.number (.u2 frames.length) :: Frame.parts move 0 frames) bytes

theorem Code.Proper.writtenExactly {depth : Nat} {code : Code} (proper : code.Proper depth)
    (short : code.length ≤ Code.maxLength) : code.WrittenExactly where
  positions operands spot member := by
    have bound := Layout.place_le_of_tiles proper.tiles (Nat.zero_le _) operands spot member
    have limit : code.length ≤ 65535 := short
    omega
  instructions operands layout done item member bytes written := by
    obtain ⟨starts, length, small⟩ := Layout.compute_eq_ok done
    rw [Layout.items, starts] at member
    have place := Layout.mem_place_of_mem_zip member
    have fits := (Layout.place_le 0 _).2 _ place
    have listed := (List.of_mem_zip (List.of_mem_zip member).1).1
    have near (target : Nat) := (Layout.move_le_length done target).trans small
    exact (proper.instructions item.1.1 listed).spells_write near (by omega) written
  frames frames listed move pool bytes after written :=
    Frame.spelled_writeTable (proper.attributes _ listed) written

/-- Arithmetic on code offsets is exact in every class that derives from a file that was read: no
sum needs more than 32 bits, and nothing is lost where a number is cut to the bytes that it has. -/
theorem ClassFile.Derives.offsets_exact {bytes : Bytes} {file : ClassFile} {model : ClassModel}
    (parsed : ClassFile.parse bytes = .ok file) (derives : file.Derives model) :
    ∀ item ∈ model.allAttributes, (∀ sum ∈ item.offsetSums, sum < 4294967296) ∧
      ∀ body, item = .code body → body.WrittenExactly := by
  intro item listed
  have bounded := derives.inBounds parsed item listed
  refine ⟨bounded.sums, fun body same => ?_⟩
  obtain ⟨short, proper⟩ := bounded.body body same
  exact proper.writtenExactly short

open Bytes in
/-- The class `o/A/B` with a method `run` that jumps to its end, where there is a frame. -/
def jumpClass : Bytes :=
  let text (chars : List Char) : Bytes :=
    1 :: u2 chars.length.toUInt16 ++ chars.map fun char => char.toNat.toUInt8
  let pool := text "o/A/B".toList ++ [7] ++ u2 1 ++ text "run".toList ++ text "()V".toList ++
    text "Code".toList ++ text "StackMapTable".toList ++ text "LocalVariableTable".toList ++
    text "I".toList
  let frames := u2 6 ++ u4 6 ++ u2 1 ++ [252] ++ u2 5 ++ [1]
  let locals := u2 7 ++ u4 12 ++ u2 1 ++ u2 2 ++ u2 4 ++ u2 8 ++ u2 8 ++ u2 0
  let body := u2 1 ++ u2 1 ++ u4 6 ++ [0x03, 0x3B, 0xA7, 0x00, 0x03, 0xB1] ++ u2 0 ++
    u2 2 ++ frames ++ locals
  let method := u2 0x0009 ++ u2 3 ++ u2 4 ++ u2 1 ++ u2 5 ++ u4 body.length.toUInt32 ++ body
  u4 magic ++ u2 0 ++ u2 52 ++ u2 9 ++ pool ++ u2 0x0021 ++ u2 2 ++ u2 0 ++ u2 0 ++ u2 0 ++
    u2 1 ++ method ++ u2 0

/-- The frame is at the return, and the variable is there from behind the store to the end. -/
theorem jumpClass_exact : ∃ file, ClassFile.parse jumpClass = .ok file ∧
    (file.model.relocate shortening).allAttributes.flatMap Attribute.offsetSums = [5, 6] ∧
    ∀ item ∈ (file.model.relocate shortening).allAttributes,
      (∀ sum ∈ item.offsetSums, sum < 4294967296) ∧
        ∀ body, item = .code body → body.WrittenExactly := by
  have runs : (do
      let file ← ClassFile.parse jumpClass
      return (file.model.relocate shortening).allAttributes.flatMap Attribute.offsetSums) =
        .ok [5, 6] := by
    decide +kernel
  obtain ⟨file, parsed, sums⟩ := Except.bind_eq_ok.1 runs
  exact ⟨file, parsed, Except.ok.inj sums,
    ClassFile.Derives.offsets_exact parsed (.renamed shortening .parsed)⟩

end ClassRenaming
