import ClassRenaming.Proofs.ReplacedSpans

/-!
Frames for a body that has its frames already. What carving left of the exception table is not carved
again, and a stack map table is replaced by itself; so with states in the same places the body that an
analysis gives frames to is given back.
-/

namespace ClassRenaming

namespace Handler

variable {dead : List (Nat × Nat)} {handler piece : Handler} {handlers : List Handler}

theorem without_of_outside {range : Nat × Nat} (ordered : range.1 < range.2)
    (positive : piece.start < piece.stop)
    (outside : ∀ offset, piece.Covers offset → ¬ Span.Inside range offset) :
    piece.without range = [piece] := by
  have first := outside piece.start ⟨Nat.le_refl _, positive⟩
  have last := outside (max piece.start range.1)
  simp only [Covers, Span.Inside] at first last
  by_cases before : piece.stop ≤ range.1
  · have empty : ¬ max piece.start range.2 < piece.stop := by omega
    simp [without, Nat.min_eq_left before, positive, empty]
  · have behind : range.2 ≤ piece.start := by omega
    have empty : ¬ piece.start < min piece.stop range.1 := by omega
    simp [without, Nat.max_eq_left behind, positive, empty]

theorem carve_of_outside (ordered : ∀ range ∈ dead, range.1 < range.2)
    (positive : piece.start < piece.stop)
    (outside : ∀ offset, piece.Covers offset → ¬ ∃ range ∈ dead, Span.Inside range offset) :
    piece.carve dead = [piece] := by
  unfold carve
  induction dead with
  | nil => rfl
  | cons range rest ih =>
    rw [List.forall_mem_cons] at ordered
    have here (offset : Nat) (covers : piece.Covers offset) : ¬ Span.Inside range offset :=
      fun inside => outside offset covers ⟨range, List.mem_cons_self, inside⟩
    rw [List.foldl_cons, List.flatMap_singleton, without_of_outside ordered.1 positive here]
    apply ih ordered.2
    intro offset covers found
    obtain ⟨other, listed, inside⟩ := found
    exact outside offset covers ⟨other, List.mem_cons_of_mem range listed, inside⟩

theorem carve_of_mem_carve (ordered : ∀ range ∈ dead, range.1 < range.2)
    (positive : handler.start < handler.stop) (part : piece ∈ handler.carve dead) :
    piece.carve dead = [piece] := by
  apply carve_of_outside ordered (sameCatch_carve dead positive piece part).2
  intro offset covers
  exact ((covers_carve dead handler offset).1 ⟨piece, part, covers⟩).2

theorem firstPieces_of_carved (carved : ∀ handler ∈ handlers, handler.carve dead = [handler])
    (next : Nat) : firstPieces dead next handlers = (List.range' next handlers.length).map some := by
  induction handlers generalizing next with
  | nil => rfl
  | cons handler rest ih =>
    rw [List.forall_mem_cons] at carved
    rw [firstPieces, carved.1, ih carved.2]
    simp [List.range'_succ]

end Handler

namespace Code

theorem carveHandlers_of_carved {code : Code} {dead : List (Nat × Nat)}
    (carved : ∀ handler ∈ code.handlers, handler.carve dead = [handler]) :
    code.carveHandlers dead = code := by
  have all : code.handlers.flatMap (Handler.carve dead) = code.handlers := by
    rw [List.flatMap_congr carved]
    simp
  have still : Handler.firstPieces dead 0 code.handlers =
      (List.range (Handler.firstPieces dead 0 code.handlers).length).map some := by
    rw [Handler.firstPieces_of_carved carved, List.length_map, List.length_range', List.range_eq_range']
  unfold carveHandlers
  dsimp only
  rw [if_pos still, all]

section Tables

variable {attributes front : List CodeAttribute} (frames : List Frame)

theorem replaceIn_of_none (bare : attributes.filterMap frames? = []) :
    setStackMap.replaceIn frames attributes = setStackMap.table frames ++ attributes := by
  unfold setStackMap.replaceIn
  dsimp only
  rw [if_neg]
  intro found
  obtain ⟨item, member, table⟩ := List.any_eq_true.1 found
  have absent := List.filterMap_eq_nil_iff.1 bare item member
  cases item with
  | stackMap old => cases absent
  | _ => cases table

theorem replaceIn_append (bare : front.filterMap frames? = []) (old : List Frame)
    (back : List CodeAttribute) :
    setStackMap.replaceIn frames (front ++ .stackMap old :: back) =
      front ++ setStackMap.table frames ++ back := by
  unfold setStackMap.replaceIn
  dsimp only
  induction front with
  | nil => simp
  | cons item rest ih =>
    cases item with
    | stackMap old => cases bare
    | _ =>
      have later := ih bare
      simp at later ⊢
      exact later

theorem replaceIn_again (tables : (attributes.filterMap frames?).length ≤ 1) :
    setStackMap.replaceIn frames (setStackMap.replaceIn frames attributes) =
      setStackMap.replaceIn frames attributes := by
  have again {front back : List CodeAttribute} (before : front.filterMap frames? = [])
      (after : back.filterMap frames? = []) :
      setStackMap.replaceIn frames (front ++ setStackMap.table frames ++ back) =
        front ++ setStackMap.table frames ++ back := by
    cases frames with
    | nil =>
      have bare : (front ++ back).filterMap frames? = [] := by
        rw [List.filterMap_append, before, after, List.nil_append]
      have table : setStackMap.table [] = [] := rfl
      rw [table, List.append_nil, replaceIn_of_none [] bare, table, List.nil_append]
    | cons first rest =>
      have table : setStackMap.table (first :: rest) = [.stackMap (first :: rest)] := rfl
      rw [table, List.append_assoc, List.singleton_append, replaceIn_append _ before, table,
        List.append_assoc, List.singleton_append]
  cases found : attributes.filterMap frames? with
  | nil =>
    rw [replaceIn_of_none frames found]
    have settled := again List.filterMap_nil found
    rwa [List.nil_append] at settled
  | cons old others =>
    rw [found, List.length_cons] at tables
    have last : others = [] := List.length_eq_zero_iff.1 (by omega)
    obtain ⟨front, item, back, rfl, before, table, after⟩ := List.filterMap_eq_cons_iff.1 found
    have bare : front.filterMap frames? = [] := List.filterMap_eq_nil_iff.2 before
    cases item with
    | stackMap old =>
      rw [replaceIn_append frames bare]
      exact again bare (after.trans last)
    | _ => cases table

theorem setStackMap_again {code : Code} (tables : code.stackMaps.length ≤ 1) :
    setStackMap frames (setStackMap frames code) = setStackMap frames code := by
  have attributes := replaceIn_again frames tables
  unfold setStackMap
  dsimp only
  rw [attributes]

end Tables

/-! A body with its frames. -/

variable {code result : Code} {flow other : Flow} {major : UInt16} {entry : FrameState} {depth : Nat}

theorem instructions_withFlow (done : code.withFlow major entry flow = .ok result) :
    result.instructions = Span.replaceDead (Span.ofCode code flow.states) := by
  rw [(withFlow_eq_ok_iff.1 done).2.2]
  rfl

theorem handlers_withFlow (done : code.withFlow major entry flow = .ok result) :
    result.handlers = (code.carveHandlers (code.deadRanges flow)).handlers := by
  rw [(withFlow_eq_ok_iff.1 done).2.2]
  rfl

theorem length_withFlow (done : code.withFlow major entry flow = .ok result) :
    result.length = code.length := by
  rw [(withFlow_eq_ok_iff.1 done).2.2, ← length_carveHandlers code (code.deadRanges flow)]
  rfl

theorem Explored.withFlow_again (explored : code.Explored flow) (proper : code.Proper depth)
    (tables : code.stackMaps.length ≤ 1) (done : code.withFlow major entry flow = .ok result)
    (spans : Span.ofCode result other.states = Span.replaced (Span.ofCode code flow.states))
    (maxStack : other.maxStack = flow.maxStack) (maxLocals : other.maxLocals = flow.maxLocals) :
    result.withFlow major entry other = .ok result := by
  have chained := proper.chained explored
  obtain ⟨stackFits, localsFit, made⟩ := withFlow_eq_ok_iff.1 done
  have dead : result.deadRanges other = code.deadRanges flow := by
    rw [deadRanges, spans, Span.deadRanges_replaced chained, deadRanges]
  have carved : result.carveHandlers (result.deadRanges other) = result := by
    apply carveHandlers_of_carved
    intro piece member
    rw [handlers_withFlow done, handlers_carveHandlers] at member
    obtain ⟨handler, listed, part⟩ := List.mem_flatMap.1 member
    rw [dead]
    have ordered := Span.ordered_deadRanges chained none (by simp)
    exact Handler.carve_of_mem_carve ordered (proper.fits listed).positive part
  have need : result.stackNeed other = code.stackNeed flow := by
    rw [stackNeed, dead, maxStack, stackNeed]
  have marks : result.frameMarks other = code.frameMarks flow := by
    unfold frameMarks
    dsimp only
    rw [← deadRanges, ← deadRanges, carved, handlers_withFlow done, length_withFlow done, spans,
      Span.branchTargets_replaced]
  have frames : result.frameTable entry other = code.frameTable entry flow := by
    rw [frameTable, marks, spans, Span.frames_replaced chained, frameTable]
  rw [withFlow_eq_ok_iff, need, maxLocals, carved, frames, spans, Span.replaceDead_replaced chained]
  refine ⟨stackFits, localsFit, ?_⟩
  have still : { result with
      instructions := Span.replaceDead (Span.ofCode code flow.states)
      maxStack := (code.stackNeed flow).toUInt16
      maxLocals := flow.maxLocals.toUInt16 } = result := by
    rw [made]
    rfl
  rw [still, made, setStackMap_again]
  have old : (code.carveHandlers (code.deadRanges flow)).stackMaps.length ≤ 1 := by
    rwa [stackMaps_carveHandlers]
  exact old

end Code

end ClassRenaming
