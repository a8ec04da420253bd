import ClassRenaming.Frames.Recomputing
import ClassRenaming.Proofs.StoredCode

/-!
A body with new frames is again one that can be read back: where dead code was replaced every old
start of an instruction is still one, so what refers to instructions still does.
-/

namespace ClassRenaming

theorem Tiles.append {start middle stop : Nat} {first second : List Placed}
    (front : Tiles start first middle) (back : Tiles middle second stop) :
    Tiles start (first ++ second) stop := by
  induction first generalizing start with
  | nil =>
    cases front
    exact back
  | cons placed rest ih => exact ⟨front.1, ih front.2⟩

namespace Span

def Chained : Nat → List Span → Nat → Prop
  | offset, [], stop => offset = stop
  | offset, span :: rest, stop =>
    span.placed.offset = offset ∧ span.stop = offset + span.placed.instruction.size offset ∧
      Chained span.stop rest stop

def zipped (instructions : List Placed) (length : Nat) (states : List (Option FrameState)) :
    List Span :=
  ((instructions.zip ((instructions.map Placed.offset).tail ++ [length])).zip states).map
    fun ((placed, stop), state) => ⟨placed, stop, state⟩

theorem chained_zipped {start stop : Nat} {instructions : List Placed}
    {states : List (Option FrameState)} (tiles : Tiles start instructions stop)
    (size : states.length = instructions.length) :
    Chained start (zipped instructions stop states) stop := by
  induction instructions generalizing start states with
  | nil => exact tiles
  | cons placed rest ih =>
    cases states with
    | nil => cases size
    | cons state states =>
      obtain ⟨rfl, later⟩ := tiles
      have behind := ih later (Nat.succ.inj size)
      cases rest with
      | nil => exact ⟨rfl, later.symm, rfl⟩
      | cons next rest => exact ⟨rfl, later.1, by rw [later.1]; exact behind⟩

theorem map_placed_zipped {length : Nat} {instructions : List Placed}
    {states : List (Option FrameState)} (size : states.length = instructions.length) :
    (zipped instructions length states).map Span.placed = instructions := by
  induction instructions generalizing states with
  | nil => rfl
  | cons placed rest ih =>
    cases states with
    | nil => cases size
    | cons state states =>
      cases rest with
      | nil => rfl
      | cons next rest => exact congrArg _ (ih (Nat.succ.inj size))

theorem Chained.stop_eq {start stop : Nat} {spans : List Span} (chained : Chained start spans stop)
    {span : Span} (member : span ∈ spans) :
    span.stop = stop ∨ ∃ next ∈ spans, next.placed.offset = span.stop := by
  induction spans generalizing start with
  | nil => cases member
  | cons first rest ih =>
    obtain ⟨-, ends, later⟩ := chained
    rcases List.mem_cons.1 member with rfl | behind
    · cases rest with
      | nil => exact .inl later
      | cons next rest => exact .inr ⟨next, by simp, later.1⟩
    · obtain last | ⟨next, listed, starts⟩ := ih later behind
      · exact .inl last
      · exact .inr ⟨next, List.mem_cons_of_mem _ listed, starts⟩

theorem tiles_nops (start count : Nat) :
    Tiles start ((List.range' start count).map (simpleAt Opcode.nop)) (start + count) := by
  induction count generalizing start with
  | zero => rfl
  | succ count ih =>
    rw [List.range'_succ]
    refine ⟨rfl, ?_⟩
    have later := ih (start + 1)
    rwa [show start + 1 + count = start + (count + 1) by omega] at later

theorem tiles_replaceDead {start stop : Nat} {spans : List Span}
    (chained : Chained start spans stop) : Tiles start (replaceDead spans) stop := by
  induction spans generalizing start with
  | nil => exact chained
  | cons span rest ih =>
    obtain ⟨rfl, ends, later⟩ := chained
    have positive := span.placed.instruction.size_pos span.placed.offset
    rw [replaceDead]
    split
    · have nops := tiles_nops span.placed.offset (span.stop - 1 - span.placed.offset)
      rw [show span.placed.offset + (span.stop - 1 - span.placed.offset) = span.stop - 1 by omega]
        at nops
      refine nops.append ⟨rfl, ?_⟩
      have last : span.stop - 1 + 1 = span.stop := by omega
      change Tiles (span.stop - 1 + 1) _ _
      rw [last]
      exact ih later
    · refine ⟨rfl, ?_⟩
      rw [← ends]
      exact ih later

theorem mem_replaceDead {spans : List Span} {placed : Placed} (member : placed ∈ replaceDead spans) :
    (∃ span ∈ spans, span.placed = placed) ∨
      placed.instruction = .simple Opcode.nop ∨ placed.instruction = .simple Opcode.athrow := by
  induction spans with
  | nil => cases member
  | cons span rest ih =>
    have behind (later : placed ∈ replaceDead rest) : (∃ other ∈ span :: rest, other.placed = placed) ∨
        placed.instruction = .simple Opcode.nop ∨ placed.instruction = .simple Opcode.athrow := by
      rcases ih later with ⟨other, listed, same⟩ | plain
      · exact .inl ⟨other, List.mem_cons_of_mem span listed, same⟩
      · exact .inr plain
    rw [replaceDead] at member
    split at member
    · rcases List.mem_append.1 member with front | back
      · obtain ⟨offset, -, rfl⟩ := List.mem_map.1 front
        exact .inr (.inl rfl)
      · rcases List.mem_cons.1 back with rfl | later
        · refine .inr ?_
          dsimp only [simpleAt]
          split
          · exact .inl rfl
          · exact .inr rfl
        · exact behind later
    · rcases List.mem_cons.1 member with rfl | later
      · exact .inl ⟨span, List.mem_cons_self, rfl⟩
      · exact behind later

theorem isStart_replaceDead {start stop : Nat} {spans : List Span}
    (chained : Chained start spans stop) {span : Span} (member : span ∈ spans) :
    Code.IsStart (replaceDead spans) span.placed.offset := by
  induction spans generalizing start with
  | nil => cases member
  | cons first rest ih =>
    obtain ⟨rfl, ends, later⟩ := chained
    have positive := first.placed.instruction.size_pos first.placed.offset
    rw [replaceDead]
    rcases List.mem_cons.1 member with rfl | behind
    · split
      · by_cases one : span.stop - 1 = span.placed.offset
        · exact ⟨_, List.mem_append_right _ List.mem_cons_self, one⟩
        · refine ⟨simpleAt Opcode.nop span.placed.offset, List.mem_append_left _ ?_, rfl⟩
          refine List.mem_map.2 ⟨span.placed.offset, ?_, rfl⟩
          rw [List.mem_range'_1]
          omega
      · exact ⟨span.placed, List.mem_cons_self, rfl⟩
    · obtain ⟨placed, listed, starts⟩ := ih later behind
      split
      · exact ⟨placed, List.mem_append_right _ (List.mem_cons_of_mem _ listed), starts⟩
      · exact ⟨placed, List.mem_cons_of_mem _ listed, starts⟩

def Ranges (spans : List Span) (range : Nat × Nat) : Prop :=
  (∃ span ∈ spans, span.placed.offset = range.1) ∧ ∃ span ∈ spans, span.stop = range.2

theorem ranges_deadRanges {all spans : List Span} (inside : ∀ span ∈ spans, span ∈ all)
    {pending : Option (Nat × Nat)} (open_ : ∀ range ∈ pending, Ranges all range) :
    ∀ range ∈ deadRanges pending spans, Ranges all range := by
  induction spans generalizing pending with
  | nil =>
    intro range member
    exact open_ range (Option.mem_toList.1 member)
  | cons span rest ih =>
    rw [List.forall_mem_cons] at inside
    rw [deadRanges]
    split
    · refine ih inside.2 ?_
      rintro range ⟨⟩
      refine ⟨?_, span, inside.1, rfl⟩
      cases pending with
      | none => exact ⟨span, inside.1, rfl⟩
      | some before => exact (open_ before rfl).1
    · intro range member
      rcases List.mem_append.1 member with closed | later
      · exact open_ range (Option.mem_toList.1 closed)
      · exact ih inside.2 (by simp) range later

theorem placed_mem {code : Code} {states : Array (Option FrameState)} {span : Span}
    (member : span ∈ ofCode code states) : span.placed ∈ code.instructions := by
  obtain ⟨⟨⟨placed, stop⟩, state⟩, listed, rfl⟩ := List.mem_map.1 member
  exact (List.of_mem_zip (List.of_mem_zip listed).1).1

end Span

namespace Handler

structure Fits (isStart : Nat → Prop) (length : Nat) (handler : Handler) : Prop where
  start : isStart handler.start
  target : isStart handler.target
  stop : handler.stop = length ∨ isStart handler.stop
  positive : handler.start < handler.stop

variable {isStart : Nat → Prop} {length : Nat}

theorem Fits.without (inside : ∀ offset, isStart offset → offset < length) {range : Nat × Nat}
    (from_ : isStart range.1) (to_ : range.2 = length ∨ isStart range.2) {handler : Handler}
    (fits : handler.Fits isStart length) :
    ∀ piece ∈ handler.without range, piece.Fits isStart length := by
  have short : handler.stop ≤ length := by
    rcases fits.stop with same | starts
    · omega
    · exact Nat.le_of_lt (inside _ starts)
  intro piece member
  obtain ⟨listed, positive⟩ := List.mem_filter.1 member
  have positive : piece.start < piece.stop := of_decide_eq_true positive
  rcases List.mem_pair.1 listed with rfl | rfl
  · refine ⟨fits.start, fits.target, ?_, positive⟩
    dsimp only
    rcases Nat.le_total handler.stop range.1 with low | high
    · rw [Nat.min_eq_left low]
      exact fits.stop
    · rw [Nat.min_eq_right high]
      exact .inr from_
  · refine ⟨?_, fits.target, fits.stop, positive⟩
    dsimp only at positive ⊢
    rcases Nat.le_total handler.start range.2 with low | high
    · rw [Nat.max_eq_right low] at positive ⊢
      exact to_.resolve_left (by omega)
    · rw [Nat.max_eq_left high]
      exact fits.start

theorem Fits.carve (inside : ∀ offset, isStart offset → offset < length)
    {dead : List (Nat × Nat)}
    (ranges : ∀ range ∈ dead, isStart range.1 ∧ (range.2 = length ∨ isStart range.2))
    {handler : Handler} (fits : handler.Fits isStart length) :
    ∀ piece ∈ handler.carve dead, piece.Fits isStart length := by
  have each (pieces : List Handler) (all : ∀ piece ∈ pieces, piece.Fits isStart length) :
      ∀ piece ∈ dead.foldl (fun pieces range => pieces.flatMap (Handler.without range)) pieces,
        piece.Fits isStart length := by
    induction dead generalizing pieces with
    | nil => exact all
    | cons range rest ih =>
      rw [List.forall_mem_cons] at ranges
      refine ih ranges.2 _ fun piece member => ?_
      obtain ⟨old, listed, inside_⟩ := List.mem_flatMap.1 member
      exact (all old listed).without inside ranges.1.1 ranges.1.2 piece inside_
  exact each [handler] (by simpa using fits)

end Handler

theorem matches_moveCatch? {moved : List (Option Nat)} {item kept : TypeAnnotation}
    (fits : item.target.Matches item.targetType) (left : item.moveCatch? moved = some kept) :
    kept.target.Matches kept.targetType := by
  unfold TypeAnnotation.moveCatch? at left
  split at left
  · next index target =>
    rw [target] at fits
    split at left
    · split at left
      · cases left
        exact fits
      · cases left
    · cases left
  · cases left
    exact fits

theorem CodeAttribute.Proper.moveCatch {item : CodeAttribute} (proper : item.Proper)
    (moved : List (Option Nat)) : (item.moveCatch moved).Proper := by
  cases item with
  | typeAnnotations visibility annotations =>
    intro kept member
    obtain ⟨old, listed, left⟩ := List.mem_filterMap.1 member
    exact matches_moveCatch? (proper old listed) left
  | _ => exact proper

theorem short_compress (previous locals stack : List VerificationType) :
    (FrameKind.compress previous locals stack).Short := by
  unfold FrameKind.compress
  split
  · split
    · trivial
    · split
      · next fewer =>
        have small : previous.length - locals.length < 256 := by omega
        have value : (previous.length - locals.length).toUInt8.toNat =
            previous.length - locals.length := by
          simpa using small
        simp only [FrameKind.Short, UInt8.le_iff_toNat_le, value]
        constructor
        · change 1 ≤ _
          omega
        · exact fewer.2.1
      · split
        · next more =>
          simp only [FrameKind.Short, List.length_drop]
          omega
        · trivial
  · split <;> trivial
  · trivial

theorem short_frames (marked : Nat → Bool) (inDead : Bool) (previous : List VerificationType)
    (spans : List Span) :
    ∀ frame ∈ Span.frames marked inDead previous spans, frame.kind.Short := by
  have short (previous : List VerificationType) (offset : Nat) (state : FrameState) :
      (Span.frame previous offset state).kind.Short := short_compress _ _ _
  induction spans generalizing inDead previous with
  | nil => simp [Span.frames]
  | cons span rest ih =>
    rw [Span.frames]
    split
    · split
      · exact List.forall_mem_cons.2 ⟨short _ _ _, ih _ _⟩
      · exact ih _ _
    · split
      · exact ih _ _
      · exact List.forall_mem_cons.2 ⟨short _ _ _, ih _ _⟩

namespace Code

theorem mem_replaceIn {frames : List Frame} {attributes : List CodeAttribute} {item : CodeAttribute}
    (member : item ∈ setStackMap.replaceIn frames attributes) :
    item = .stackMap frames ∨ item ∈ attributes := by
  have table (listed : item ∈ setStackMap.table frames) : item = .stackMap frames := by
    unfold setStackMap.table at listed
    split at listed
    · cases listed
    · exact List.mem_singleton.1 listed
  unfold setStackMap.replaceIn at member
  dsimp only at member
  split at member
  · rcases List.mem_append.1 member with front | back
    · rcases List.mem_append.1 front with before | here
      · exact .inr ((List.takeWhile_sublist _).subset before)
      · exact .inl (table here)
    · exact .inr (List.dropWhile_subset _ (List.mem_of_mem_drop back))
  · rcases List.mem_append.1 member with here | old
    · exact .inl (table here)
    · exact .inr old

variable {depth : Nat} {code : Code}

theorem handlers_carveHandlers (dead : List (Nat × Nat)) :
    (code.carveHandlers dead).handlers = code.handlers.flatMap (Handler.carve dead) := by
  unfold carveHandlers
  dsimp only
  split <;> rfl

theorem length_carveHandlers (code : Code) (dead : List (Nat × Nat)) :
    (code.carveHandlers dead).length = code.length := by
  unfold carveHandlers
  dsimp only
  split <;> rfl

theorem proper_of_mem_carveHandlers (proper : ∀ item ∈ code.attributes, item.Proper)
    (dead : List (Nat × Nat)) : ∀ item ∈ (code.carveHandlers dead).attributes, item.Proper := by
  unfold carveHandlers
  dsimp only
  split
  · exact proper
  · intro item member
    obtain ⟨old, listed, rfl⟩ := List.mem_map.1 member
    exact (proper old listed).moveCatch _

theorem Proper.fits (proper : code.Proper depth) {handler : Handler}
    (member : handler ∈ code.handlers) :
    handler.Fits (IsStart code.instructions) code.length := by
  obtain ⟨start, target, stop, positive⟩ := proper.handlers handler member
  exact ⟨start, target, stop, positive⟩

def frameMarks (code : Code) (flow : Flow) (offset : Nat) : Bool :=
  let spans := Span.ofCode code flow.states
  let carved := code.carveHandlers (Span.deadRanges none spans)
  (markOffsets code.length
    (Span.branchTargets spans ++ carved.handlers.map Handler.target))[offset]?.getD false

def deadRanges (code : Code) (flow : Flow) : List (Nat × Nat) :=
  Span.deadRanges none (Span.ofCode code flow.states)

def frameTable (code : Code) (entry : FrameState) (flow : Flow) : List Frame :=
  Span.frames (code.frameMarks flow) false entry.localEntries (Span.ofCode code flow.states)

/-- The slots of the stack that a body needs: a thrown value, at least, where dead code was. -/
def stackNeed (code : Code) (flow : Flow) : Nat :=
  if (code.deadRanges flow).isEmpty then flow.maxStack else max flow.maxStack 1

theorem withFlow_eq_ok_iff {major : UInt16} {entry : FrameState} {flow : Flow} {result : Code} :
    code.withFlow major entry flow = .ok result ↔
      code.stackNeed flow ≤ 65535 ∧ flow.maxLocals ≤ 65535 ∧
        result = setStackMap (if stackMapVersion ≤ major then code.frameTable entry flow else [])
          { code.carveHandlers (code.deadRanges flow) with
            instructions := Span.replaceDead (Span.ofCode code flow.states)
            maxStack := (code.stackNeed flow).toUInt16
            maxLocals := flow.maxLocals.toUInt16 } := by
  have stack : (if (Span.deadRanges none (Span.ofCode code flow.states)).isEmpty then flow.maxStack
      else max flow.maxStack 1) = code.stackNeed flow := rfl
  unfold withFlow
  dsimp only
  rw [stack]
  by_cases large : 65535 < code.stackNeed flow
  · rw [if_pos large]
    constructor
    · intro done
      cases done
    · intro fits
      omega
  · rw [if_neg large]
    by_cases more : 65535 < flow.maxLocals
    · rw [if_pos more]
      constructor
      · intro done
        cases done
      · intro fits
        omega
    · rw [if_neg more]
      have fits : code.stackNeed flow ≤ 65535 ∧ flow.maxLocals ≤ 65535 := by omega
      simp only [fits, true_and]
      constructor
      · intro done
        exact (Except.ok.inj done).symm
      · intro same
        rw [same]
        rfl

theorem eq_of_withFlow {major : UInt16} {entry : FrameState} {flow : Flow} {result : Code}
    (done : code.withFlow major entry flow = .ok result) :
    ∃ maxStack maxLocals, result =
      setStackMap
        (if stackMapVersion ≤ major then
          Span.frames (code.frameMarks flow) false entry.localEntries
            (Span.ofCode code flow.states) else [])
        { code.carveHandlers (Span.deadRanges none (Span.ofCode code flow.states)) with
          instructions := Span.replaceDead (Span.ofCode code flow.states), maxStack, maxLocals } := by
  obtain ⟨-, -, made⟩ := withFlow_eq_ok_iff.1 done
  exact ⟨_, _, made⟩

section Spans

variable {states : Array (Option FrameState)}

theorem Proper.chained_ofCode (proper : code.Proper depth)
    (size : states.size = code.instructions.length) :
    Span.Chained 0 (Span.ofCode code states) code.length :=
  Span.chained_zipped proper.tiles (by simpa using size)

theorem isStart_iff_ofCode (size : states.size = code.instructions.length) {offset : Nat} :
    IsStart code.instructions offset ↔
      ∃ span ∈ Span.ofCode code states, span.placed.offset = offset := by
  have placed : (Span.ofCode code states).map Span.placed = code.instructions :=
    Span.map_placed_zipped (by simpa using size)
  rw [← placed]
  simp [IsStart]

theorem Proper.isStart_replaceDead (proper : code.Proper depth)
    (size : states.size = code.instructions.length) {offset : Nat}
    (start : IsStart code.instructions offset) :
    IsStart (Span.replaceDead (Span.ofCode code states)) offset := by
  obtain ⟨span, member, rfl⟩ := (isStart_iff_ofCode size).1 start
  exact Span.isStart_replaceDead (proper.chained_ofCode size) member

theorem Proper.starts_deadRanges (proper : code.Proper depth)
    (size : states.size = code.instructions.length) :
    ∀ range ∈ Span.deadRanges none (Span.ofCode code states),
      IsStart code.instructions range.1 ∧
        (range.2 = code.length ∨ IsStart code.instructions range.2) := by
  intro range member
  obtain ⟨starts, last, listed, ends⟩ :=
    Span.ranges_deadRanges (fun _ => id) (by simp) range member
  refine ⟨(isStart_iff_ofCode size).2 starts, ?_⟩
  rw [← ends]
  exact ((proper.chained_ofCode size).stop_eq listed).imp_right (isStart_iff_ofCode size).2

theorem mem_replaceDead_ofCode {found : Placed}
    (member : found ∈ Span.replaceDead (Span.ofCode code states)) :
    found ∈ code.instructions ∨ found.instruction = .simple Opcode.nop ∨
      found.instruction = .simple Opcode.athrow := by
  refine (Span.mem_replaceDead member).imp_left ?_
  rintro ⟨span, listed, rfl⟩
  exact Span.placed_mem listed

end Spans

theorem Proper.withFlow {major : UInt16} {entry : FrameState} {flow : Flow} {result : Code}
    (proper : code.Proper depth) (size : flow.states.size = code.instructions.length)
    (done : code.withFlow major entry flow = .ok result) : result.Proper depth := by
  let spans := Span.ofCode code flow.states
  let dead := Span.deadRanges none spans
  have inside (offset : Nat) (start : IsStart code.instructions offset) : offset < code.length := by
    obtain ⟨found, member, rfl⟩ := start
    exact proper.tiles.offset_lt member
  obtain ⟨maxStack, maxLocals, rfl⟩ := eq_of_withFlow done
  constructor
  case tiles =>
    have tiles := Span.tiles_replaceDead (proper.chained_ofCode size)
    rw [← length_carveHandlers code dead] at tiles
    exact tiles
  case nonempty =>
    intro empty
    obtain ⟨first, member⟩ := List.exists_mem_of_ne_nil _ proper.nonempty
    obtain ⟨found, listed, -⟩ := proper.isStart_replaceDead size ⟨first, member, rfl⟩
    rw [show Span.replaceDead spans = [] from empty] at listed
    cases listed
  case instructions =>
    intro found member
    rcases mem_replaceDead_ofCode member with old | nop | athrow
    · exact proper.instructions found old
    · rw [nop]
      rfl
    · rw [athrow]
      rfl
  case targets =>
    intro found member target listed
    rcases mem_replaceDead_ofCode member with old | nop | athrow
    · exact proper.isStart_replaceDead size (proper.targets found old target listed)
    · rw [nop] at listed
      cases listed
    · rw [athrow] at listed
      cases listed
  case handlers =>
    intro handler member
    change handler ∈ (code.carveHandlers dead).handlers at member
    rw [handlers_carveHandlers] at member
    obtain ⟨whole, listed, piece⟩ := List.mem_flatMap.1 member
    have fits := (proper.fits listed).carve inside (proper.starts_deadRanges size) handler piece
    refine ⟨proper.isStart_replaceDead size fits.start, proper.isStart_replaceDead size fits.target,
      ?_, fits.positive⟩
    rw [← length_carveHandlers code dead] at fits
    exact fits.stop.imp_right (proper.isStart_replaceDead size)
  case attributes =>
    intro item member
    rcases mem_replaceIn member with rfl | listed
    · intro frame member
      split at member
      · exact short_frames _ _ _ _ frame member
      · cases member
    · exact proper_of_mem_carveHandlers proper.attributes dead item listed

end Code

end ClassRenaming
