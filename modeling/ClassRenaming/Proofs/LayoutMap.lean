import ClassRenaming.Code.Writing
import ClassRenaming.Proofs.ComesBack

/-!
Where a layout moves the starts of instructions. Instructions that stand one behind the other stand
so again after they moved, in the same order, and the end of the body moves to the new end.
-/

namespace ClassRenaming

theorem Instruction.size_pos (instruction : Instruction) (offset : Nat) :
    0 < instruction.size offset := by
  unfold Instruction.size
  split <;> (try split) <;> omega

def Tiles : Nat → List Placed → Nat → Prop
  | offset, [], stop => offset = stop
  | offset, placed :: rest, stop =>
    placed.offset = offset ∧ Tiles (offset + placed.instruction.size offset) rest stop

namespace Tiles

variable {start stop : Nat} {instructions : List Placed}

theorem le (tiles : Tiles start instructions stop) : start ≤ stop := by
  induction instructions generalizing start with
  | nil => exact Nat.le_of_eq tiles
  | cons placed rest ih =>
    have later := ih tiles.2
    omega

theorem le_offset (tiles : Tiles start instructions stop) {placed : Placed}
    (member : placed ∈ instructions) : start ≤ placed.offset := by
  induction instructions generalizing start with
  | nil => cases member
  | cons first rest ih =>
    rcases List.mem_cons.1 member with rfl | member
    · exact Nat.le_of_eq tiles.1.symm
    · have later := ih tiles.2 member
      omega

theorem end_le (tiles : Tiles start instructions stop) {placed : Placed}
    (member : placed ∈ instructions) :
    placed.offset + placed.instruction.size placed.offset ≤ stop := by
  induction instructions generalizing start with
  | nil => cases member
  | cons first rest ih =>
    rcases List.mem_cons.1 member with rfl | member
    · rw [tiles.1]
      exact tiles.2.le
    · exact ih tiles.2 member

theorem offset_lt (tiles : Tiles start instructions stop) {placed : Placed}
    (member : placed ∈ instructions) : placed.offset < stop := by
  have inside := tiles.end_le member
  have pos := placed.instruction.size_pos placed.offset
  omega

theorem ascending (tiles : Tiles start instructions stop) :
    instructions.Pairwise fun first second => first.offset < second.offset := by
  induction instructions generalizing start with
  | nil => exact .nil
  | cons first rest ih =>
    refine .cons (fun second member => ?_) (ih tiles.2)
    have later := tiles.2.le_offset member
    have pos := first.instruction.size_pos start
    rw [tiles.1]
    omega

end Tiles

namespace Layout

theorem size_moveSpan (moved : Array Nat) (start stop position size : Nat) :
    (moveSpan moved start stop position size).size = moved.size := by
  unfold moveSpan
  generalize List.range (stop - start) = insides
  induction insides generalizing moved with
  | nil => rfl
  | cons inside insides ih => rw [List.foldl_cons, ih, Array.size_setIfInBounds]

theorem moveSpan_outside (moved : Array Nat) {start stop position size offset : Nat}
    (outside : offset < start ∨ stop ≤ offset) :
    (moveSpan moved start stop position size)[offset]? = moved[offset]? := by
  have apart : ∀ inside ∈ List.range (stop - start), start + inside ≠ offset := by
    intro inside member
    have bound := List.mem_range.1 member
    omega
  unfold moveSpan
  generalize List.range (stop - start) = insides at apart
  induction insides generalizing moved with
  | nil => rfl
  | cons inside insides ih =>
    rw [List.foldl_cons, ih _ fun other member => apart other (by simp [member]),
      Array.getElem?_setIfInBounds_ne (apart inside (by simp))]

theorem moveSpan_inside (moved : Array Nat) {start stop position size inside : Nat}
    (before : start + inside < stop) (room : start + inside < moved.size) :
    (moveSpan moved start stop position size)[start + inside]? =
      some (position + min inside (size - 1)) := by
  have within : inside < stop - start := by omega
  unfold moveSpan
  generalize stop - start = count at within
  induction count with
  | zero => omega
  | succ count ih =>
    rw [List.range_succ, List.foldl_append, List.foldl_cons, List.foldl_nil]
    have same := size_moveSpan moved start (start + count) position size
    rw [moveSpan, Nat.add_sub_cancel_left] at same
    rcases Nat.lt_succ_iff_lt_or_eq.1 within with below | rfl
    · rw [Array.getElem?_setIfInBounds_ne (by omega), ih below]
    · rw [Array.getElem?_setIfInBounds_self_of_lt (by omega)]

def moveSpans (moved : Array Nat) (spans : List ((Placed × Nat) × Nat × Nat)) : Array Nat :=
  spans.foldl
    (fun moved ((placed, stop), position, size) => moveSpan moved placed.offset stop position size)
    moved

theorem moveSpans_cons (moved : Array Nat) (placed : Placed) (stop position size : Nat)
    (spans : List ((Placed × Nat) × Nat × Nat)) :
    moveSpans moved (((placed, stop), position, size) :: spans) =
      moveSpans (moveSpan moved placed.offset stop position size) spans := rfl

theorem size_moveSpans (moved : Array Nat) (spans : List ((Placed × Nat) × Nat × Nat)) :
    (moveSpans moved spans).size = moved.size := by
  induction spans generalizing moved with
  | nil => rfl
  | cons span spans ih =>
    have later := ih (moveSpan moved span.1.1.offset span.1.2 span.2.1 span.2.2)
    rw [size_moveSpan] at later
    exact later

theorem moveSpans_before (moved : Array Nat) {spans : List ((Placed × Nat) × Nat × Nat)}
    {offset : Nat} (before : ∀ span ∈ spans, offset < span.1.1.offset) :
    (moveSpans moved spans)[offset]? = moved[offset]? := by
  induction spans generalizing moved with
  | nil => rfl
  | cons span spans ih =>
    have later := ih (moveSpan moved span.1.1.offset span.1.2 span.2.1 span.2.2)
      fun other member => before other (by simp [member])
    rw [moveSpan_outside moved (.inl (before span (by simp)))] at later
    exact later

end Layout

theorem zip_ends_of_tiles {start stop : Nat} {instructions : List Placed}
    (tiles : Tiles start instructions stop) :
    instructions.zip ((instructions.map Placed.offset).tail ++ [stop]) =
      instructions.map fun placed =>
        (placed, placed.offset + placed.instruction.size placed.offset) := by
  induction instructions generalizing start with
  | nil => rfl
  | cons placed rest ih =>
    obtain ⟨rfl, later⟩ := tiles
    have others := ih later
    cases rest with
    | nil =>
      have last : placed.offset + placed.instruction.size placed.offset = stop := later
      simp [last]
    | cons next rest =>
      have nextIs : next.offset = placed.offset + placed.instruction.size placed.offset := later.1
      simp only [List.map_cons, List.tail_cons, List.cons_append, List.zip_cons_cons] at others ⊢
      rw [others, nextIs]

namespace Layout

theorem moves_of_moveSpans (moved : Array Nat) (position : Nat) {start stop : Nat}
    {instructions : List Placed} {operands : List (Option UInt16)}
    (same : operands.length = instructions.length) (tiles : Tiles start instructions stop)
    (room : stop ≤ moved.size) :
    let places := (place position (instructions.zip operands)).1
    List.Forall₂
      (fun item place => place.2 = item.1.instruction.writtenSize item.2 place.1 ∧
        ∀ inside < item.1.instruction.size item.1.offset,
          item.1.offset + inside < stop ∧
          (moveSpans moved ((instructions.map fun placed =>
            (placed, placed.offset + placed.instruction.size placed.offset)).zip places))[
              item.1.offset + inside]? = some (place.1 + min inside (place.2 - 1)))
      (instructions.zip operands) places := by
  induction instructions generalizing moved position start operands with
  | nil => exact .nil
  | cons placed rest ih =>
    cases operands with
    | nil => cases same
    | cons operand operands =>
      obtain ⟨rfl, later⟩ := tiles
      have bound := later.le
      simp only [List.zip_cons_cons, place, List.map_cons]
      refine .cons ⟨rfl, fun inside within => ?_⟩ ?_
      · dsimp only at within ⊢
        refine ⟨by omega, ?_⟩
        rw [moveSpans_cons]
        refine Eq.trans (moveSpans_before _ ?_) (moveSpan_inside moved (by omega) (by omega))
        intro span member
        obtain ⟨other, among, isSpan⟩ := List.mem_map.1 (List.of_mem_zip member).1
        have behind := later.le_offset among
        rw [← isSpan]
        dsimp only
        omega
      · refine ih _ _ (Nat.succ.inj same) later ?_
        rw [size_moveSpan]
        exact room

theorem starts_of_moveSpans (moved : Array Nat) (position : Nat) {start stop : Nat}
    {instructions : List Placed} {operands : List (Option UInt16)}
    (same : operands.length = instructions.length) (tiles : Tiles start instructions stop)
    (room : stop ≤ moved.size) :
    let places := (place position (instructions.zip operands)).1
    List.Forall₂
      (fun placed place => placed.offset < stop ∧
        (moveSpans moved ((instructions.map fun placed =>
          (placed, placed.offset + placed.instruction.size placed.offset)).zip places))[placed.offset]?
            = some place.1)
      instructions places := by
  intro places
  have items : (instructions.zip operands).map Prod.fst = instructions :=
    List.map_fst_zip (Nat.le_of_eq same.symm)
  conv => arg 2; rw [← items]
  rw [List.forall₂_map_left_iff]
  refine (moves_of_moveSpans moved position same tiles room).imp fun item place moves => ?_
  have first := moves.2 0 (item.1.instruction.size_pos item.1.offset)
  rwa [Nat.add_zero, Nat.zero_min, Nat.add_zero] at first
structure Covers (layout : Layout) (code : Code) (operands : List (Option UInt16)) : Prop where
  small : layout.length < 65536
  starts : layout.starts = (place 0 (code.instructions.zip operands)).1.map (·.1)
  length : layout.length = (place 0 (code.instructions.zip operands)).2
  moves : layout.starts = code.instructions.map fun placed => layout.move placed.offset
  stop : layout.move code.length = layout.length

theorem covers_compute {code : Code} {operands : List (Option UInt16)} {layout : Layout}
    (same : operands.length = code.instructions.length)
    (tiles : Tiles 0 code.instructions code.length) (done : compute code operands = .ok layout) :
    layout.Covers code operands := by
  have spans : code.spans = code.instructions.map fun placed =>
      (placed, placed.offset + placed.instruction.size placed.offset) := zip_ends_of_tiles tiles
  have moves := starts_of_moveSpans (Array.replicate (code.length + 1) 0) 0 same tiles (by simp)
  unfold compute at done
  generalize here : place 0 (code.instructions.zip operands) = placement at done moves
  obtain ⟨places, length⟩ := placement
  dsimp only at done moves
  split at done
  · cases done
  case isFalse small =>
    cases done
    rw [← spans] at moves
    refine ⟨Nat.lt_succ_of_le (Nat.not_lt.1 small), by rw [here], by rw [here], ?_, ?_⟩
    · have each : List.Forall₂ (fun start placed => start = (move ⟨places.map (·.1),
          (moveSpans (Array.replicate (code.length + 1) 0) (code.spans.zip places)).setIfInBounds
            code.length length, length⟩ ∘ Placed.offset) placed) (places.map (·.1))
          code.instructions := by
        rw [List.forall₂_map_left_iff]
        refine moves.flip.imp fun place placed found => ?_
        simp only [move, Function.comp_apply, Array.getD_eq_getD_getElem?]
        rw [Array.getElem?_setIfInBounds_ne (by omega), found.2]
        rfl
      rw [← List.forall₂_map_right_iff, List.forall₂_eq_eq_eq] at each
      exact each
    · have size := size_moveSpans (Array.replicate (code.length + 1) 0) (code.spans.zip places)
      simp only [move, Array.getD_eq_getD_getElem?]
      rw [Array.getElem?_setIfInBounds_self_of_lt]
      · rfl
      · change code.length < (moveSpans _ _).size
        rw [size, Array.size_replicate]
        omega

end Layout

theorem Instruction.size_moved (instruction : Instruction) (move : Nat → Nat)
    (operand : Option UInt16) (position : Nat) :
    (instruction.moved move operand).size position = instruction.writtenSize operand position := by
  cases instruction with
  | load opcode constant =>
    simp only [Instruction.moved, Instruction.writtenSize, Instruction.size, Instruction.widens,
      Bool.and_eq_true, beq_iff_eq, decide_eq_true_eq]
    by_cases wide : opcode = Opcode.ldc ∧ operand.getD 0 > 255
    · obtain ⟨rfl, large⟩ := wide
      have longer : Opcode.ldcW ≠ Opcode.ldc := by decide
      simp [large, longer]
    · simp only [wide, if_false, Nat.add_zero]
  | _ => simp [Instruction.moved, Instruction.writtenSize, Instruction.size, Instruction.widens]

namespace Layout

theorem tiles_place (move : Nat → Nat) (position : Nat) (items : List (Placed × Option UInt16)) :
    Tiles position
      ((items.zip ((place position items).1.map (·.1))).map fun ((placed, operand), start) =>
        ⟨start, placed.instruction.moved move operand⟩)
      (place position items).2 := by
  induction items generalizing position with
  | nil => exact rfl
  | cons item items ih =>
    refine ⟨rfl, ?_⟩
    change Tiles (position + (item.1.instruction.moved move item.2).size position) _ _
    rw [Instruction.size_moved]
    exact ih _

variable {code : Code} {operands : List (Option UInt16)} {layout : Layout}

theorem Covers.tiles (covers : layout.Covers code operands) :
    Tiles 0 (code.moved operands layout).instructions layout.length := by
  have tiles := tiles_place layout.move 0 (code.instructions.zip operands)
  rw [← covers.starts, ← covers.length] at tiles
  exact tiles

theorem Covers.offsets (covers : layout.Covers code operands)
    (same : operands.length = code.instructions.length) :
    (code.moved operands layout).instructions.map Placed.offset = layout.starts := by
  have length : layout.starts.length = code.instructions.length := by
    rw [covers.moves, List.length_map]
  simp only [Code.moved, List.map_map]
  refine List.map_snd_zip ?_
  rw [List.length_zip, same, length]
  omega

theorem Covers.move_lt_move (covers : layout.Covers code operands)
    (same : operands.length = code.instructions.length) (tiles : Tiles 0 code.instructions code.length)
    {first second : Placed} (one : first ∈ code.instructions) (other : second ∈ code.instructions)
    (before : first.offset < second.offset) :
    layout.move first.offset < layout.move second.offset := by
  have ascending := List.pairwise_map.2 covers.tiles.ascending
  rw [covers.offsets same, covers.moves] at ascending
  have new := List.pairwise_map.1 ascending
  obtain ⟨i, inside, rfl⟩ := List.getElem_of_mem one
  obtain ⟨j, within, rfl⟩ := List.getElem_of_mem other
  rcases Nat.lt_trichotomy i j with below | rfl | above
  · exact List.pairwise_iff_getElem.1 new i j inside within below
  · omega
  · have back := List.pairwise_iff_getElem.1 tiles.ascending j i within inside above
    omega

theorem Covers.move_lt_length (covers : layout.Covers code operands)
    (same : operands.length = code.instructions.length) {placed : Placed}
    (member : placed ∈ code.instructions) : layout.move placed.offset < layout.length := by
  have moved : layout.move placed.offset ∈
      (code.moved operands layout).instructions.map Placed.offset := by
    rw [covers.offsets same, covers.moves]
    exact List.mem_map.2 ⟨placed, member, rfl⟩
  obtain ⟨other, inside, here⟩ := List.mem_map.1 moved
  rw [← here]
  exact covers.tiles.offset_lt inside

/-! No offset moves past the end. -/

theorem moveSpan_le {moved : Array Nat} {start stop position size length : Nat}
    (bounded : ∀ offset : Nat, ∀ target, moved[offset]? = some target → target ≤ length)
    (fits : position + size ≤ length) (offset target : Nat)
    (found : (moveSpan moved start stop position size)[offset]? = some target) :
    target ≤ length := by
  by_cases outside : offset < start ∨ stop ≤ offset
  · rw [moveSpan_outside moved outside] at found
    exact bounded offset target found
  · obtain ⟨inside, rfl⟩ : ∃ inside, offset = start + inside := ⟨offset - start, by omega⟩
    have room := (Array.getElem?_eq_some_iff.1 found).1
    rw [size_moveSpan] at room
    rw [moveSpan_inside moved (by omega) room] at found
    cases found
    omega

theorem moveSpans_le {moved : Array Nat} {spans : List ((Placed × Nat) × Nat × Nat)} {length : Nat}
    (bounded : ∀ offset : Nat, ∀ target, moved[offset]? = some target → target ≤ length)
    (fits : ∀ span ∈ spans, span.2.1 + span.2.2 ≤ length) (offset target : Nat)
    (found : (moveSpans moved spans)[offset]? = some target) : target ≤ length := by
  induction spans generalizing moved with
  | nil => exact bounded offset target found
  | cons span spans ih =>
    obtain ⟨⟨placed, stop⟩, position, size⟩ := span
    rw [moveSpans_cons] at found
    refine ih (fun offset target found => ?_) (fun span member => fits span (by simp [member])) found
    exact moveSpan_le bounded (fits ((placed, stop), position, size) (by simp)) offset target found

theorem place_le (position : Nat) (items : List (Placed × Option UInt16)) :
    position ≤ (place position items).2 ∧
      ∀ span ∈ (place position items).1, span.1 + span.2 ≤ (place position items).2 := by
  induction items generalizing position with
  | nil => simp [place]
  | cons item items ih =>
    have later := ih (position + item.1.instruction.writtenSize item.2 position)
    refine ⟨Nat.le_trans (Nat.le_add_right _ _) later.1, fun span member => ?_⟩
    rcases List.mem_cons.1 member with rfl | member
    · exact later.1
    · exact later.2 span member

theorem move_le_length {code : Code} {operands : List (Option UInt16)} {layout : Layout}
    (done : compute code operands = .ok layout) (offset : Nat) :
    layout.move offset ≤ layout.length := by
  unfold compute at done
  have fits := place_le 0 (code.instructions.zip operands)
  generalize place 0 (code.instructions.zip operands) = placement at done fits
  obtain ⟨places, length⟩ := placement
  dsimp only at done fits
  split at done
  · cases done
  cases done
  have bounded : ∀ offset target : Nat,
      (moveSpans (Array.replicate (code.length + 1) 0) (code.spans.zip places))[offset]? =
        some target → target ≤ length := by
    refine fun offset target => moveSpans_le (fun offset target found => ?_)
      (fun span member => fits.2 span.2 (List.of_mem_zip member).2) offset target
    obtain ⟨-, rfl⟩ := by simpa [Array.getElem?_replicate] using found
    exact Nat.zero_le _
  rw [move, Array.getD_eq_getD_getElem?]
  cases found : ((moveSpans (Array.replicate (code.length + 1) 0)
      (code.spans.zip places)).setIfInBounds code.length length)[offset]? with
  | none => exact Nat.le_of_eq (congrArg (Option.getD · length) found)
  | some target =>
    refine Nat.le_trans (Nat.le_of_eq (congrArg (Option.getD · length) found)) ?_
    change target ≤ length
    by_cases last : code.length = offset
    · subst last
      have room := (Array.getElem?_eq_some_iff.1 found).1
      rw [Array.size_setIfInBounds] at room
      rw [Array.getElem?_setIfInBounds_self_of_lt room] at found
      exact Nat.le_of_eq (Option.some.inj found).symm
    · rw [Array.getElem?_setIfInBounds_ne last] at found
      exact bounded offset target found

/-! A body that stands where its layout puts it does not move again. -/

theorem place_of_tiles {start stop : Nat} {instructions : List Placed}
    {operands : List (Option UInt16)} (same : operands.length = instructions.length)
    (tiles : Tiles start instructions stop)
    (narrow : List.Forall₂ (fun placed operand => placed.instruction.widens operand = false)
      instructions operands) :
    place start (instructions.zip operands) =
      (instructions.map fun placed => (placed.offset, placed.instruction.size placed.offset),
        stop) := by
  induction narrow generalizing start with
  | nil =>
    obtain rfl : start = stop := tiles
    rfl
  | @cons placed operand instructions operands first _ ih =>
    obtain ⟨rfl, later⟩ := tiles
    have size : placed.instruction.writtenSize operand placed.offset =
        placed.instruction.size placed.offset := by
      rw [Instruction.writtenSize, first]
      rfl
    simp only [List.zip_cons_cons, place, size, ih (Nat.succ.inj same) later, List.map_cons]

theorem moveSpans_still {moved : Array Nat} {start stop : Nat} {instructions : List Placed}
    (tiles : Tiles start instructions stop) (room : stop ≤ moved.size) {offset : Nat}
    (above : start ≤ offset) (below : offset < stop) :
    (moveSpans moved (instructions.map fun placed =>
      ((placed, placed.offset + placed.instruction.size placed.offset),
        placed.offset, placed.instruction.size placed.offset)))[offset]? = some offset := by
  induction instructions generalizing moved start with
  | nil =>
    have met : start = stop := tiles
    omega
  | cons placed rest ih =>
    obtain ⟨rfl, later⟩ := tiles
    rw [List.map_cons, moveSpans_cons]
    rcases Nat.lt_or_ge offset (placed.offset + placed.instruction.size placed.offset) with
      inside | behind
    · obtain ⟨inner, rfl⟩ : ∃ inner, offset = placed.offset + inner :=
        ⟨offset - placed.offset, by omega⟩
      rw [moveSpans_before, moveSpan_inside moved inside (by omega)]
      · congr 1
        omega
      · intro span member
        obtain ⟨other, among, rfl⟩ := List.mem_map.1 member
        have next := later.le_offset among
        dsimp only
        omega
    · exact ih later (by rwa [size_moveSpan]) behind

theorem compute_still {code : Code} {operands : List (Option UInt16)}
    (same : operands.length = code.instructions.length)
    (tiles : Tiles 0 code.instructions code.length) (short : code.length ≤ 65535)
    (narrow : List.Forall₂ (fun placed operand => placed.instruction.widens operand = false)
      code.instructions operands) :
    ∃ layout, compute code operands = .ok layout ∧
      layout.starts = code.instructions.map Placed.offset ∧ layout.length = code.length ∧
        ∀ offset ≤ code.length, layout.move offset = offset := by
  have spans : code.spans = code.instructions.map fun placed =>
      (placed, placed.offset + placed.instruction.size placed.offset) := zip_ends_of_tiles tiles
  unfold compute
  rw [place_of_tiles same tiles narrow, spans]
  dsimp only
  rw [List.zip_map', if_neg (Nat.not_lt.2 short)]
  refine ⟨_, rfl, by simp, rfl, fun offset inside => ?_⟩
  have size := size_moveSpans (Array.replicate (code.length + 1) 0)
    (code.instructions.map fun placed =>
      ((placed, placed.offset + placed.instruction.size placed.offset),
        placed.offset, placed.instruction.size placed.offset))
  have still := fun below => @moveSpans_still (Array.replicate (code.length + 1) 0) _ _ _ tiles
    (by simp) _ (Nat.zero_le offset) below
  rw [Array.size_replicate] at size
  simp only [moveSpans] at size still
  simp only [move, Array.getD_eq_getD_getElem?]
  rcases Nat.lt_or_eq_of_le inside with below | rfl
  · rw [Array.getElem?_setIfInBounds_ne (by omega), still below]
    rfl
  · rw [Array.getElem?_setIfInBounds_self_of_lt (by omega)]
    rfl

end Layout

theorem Instruction.widens_moved (instruction : Instruction) (move : Nat → Nat)
    (operand : Option UInt16) : (instruction.moved move operand).widens operand = false := by
  cases instruction with
  | load opcode constant =>
    by_cases wide : opcode = Opcode.ldc ∧ operand.getD 0 > 255
    · have longer : Opcode.ldcW ≠ Opcode.ldc := by decide
      simp [Instruction.moved, Instruction.widens, wide, longer]
    · have narrow : ¬ (opcode == Opcode.ldc && operand.getD 0 > 255) = true := by
        simpa only [Bool.and_eq_true, beq_iff_eq, decide_eq_true_eq] using wide
      rw [Instruction.moved, if_neg wide]
      exact Bool.eq_false_iff.2 narrow
  | _ => rfl

end ClassRenaming
