import ClassRenaming.Proofs.PlacedRuns
import ClassRenaming.Proofs.SettledBodies

/-!
Recomputing frames a second time. The reached instructions of a body keep places of their own in the
body with new frames, so a second analysis finds the states of the first one there and nothing else;
and these states give back the body that they are in.
-/

namespace ClassRenaming

namespace Code

variable {code result : Code} {flow other : Flow} {major : UInt16} {entry : FrameState} {depth : Nat}

theorem Explored.placedIn (explored : code.Explored flow) (proper : code.Proper depth)
    (done : code.withFlow major entry flow = .ok result) :
    code.PlacedIn (Span.place (Span.ofCode code flow.states)) result := by
  have chained := proper.chained explored
  have live_span {position : Nat} {placed : Placed} (reached : code.Reached position)
      (here : code.instructions[position]? = some placed) :
      ∃ span, (Span.ofCode code flow.states)[position]? = some span ∧ span.placed = placed ∧
        ¬ span.isDead := by
    obtain ⟨span, found, same⟩ := explored.span here
    exact ⟨span, found, same, (explored.live_iff found).2 reached⟩
  constructor
  case tiles => exact proper.tiles
  case others => exact (proper.withFlow explored.size done).tiles
  case nonempty => exact proper.nonempty
  case first => exact Span.place_zero _
  case instruction =>
    intro position placed reached here
    obtain ⟨span, found, rfl, live⟩ := live_span reached here
    rw [instructions_withFlow done, ← Span.map_placed_replaced chained, List.getElem?_map,
      Span.getElem?_replaced found live, Option.map_some]
  case next =>
    intro position reached
    obtain ⟨placed, here⟩ := reached.exists_instruction proper.nonempty
    obtain ⟨span, found, -, live⟩ := live_span reached here
    exact Span.place_succ found live
  case dispatch =>
    intro position placed reached here
    obtain ⟨span, found, rfl, live⟩ := live_span reached here
    have member := List.mem_of_getElem? found
    rw [handlers_withFlow done]
    exact explored.dispatch_carved proper member live
      ⟨Nat.le_refl _, chained.offset_lt_stop span member⟩

theorem Explored.stateAt?_replaced (explored : code.Explored flow)
    (tracks : Flow.Tracks (Span.place (Span.ofCode code flow.states)) code result flow other)
    {position : Nat} {span : Span}
    (here : (Span.replaced (Span.ofCode code flow.states))[position]? = some span) :
    other.stateAt? position = span.state := by
  by_cases dead : span.isDead
  · rw [Option.isNone_iff_eq_none.1 dead]
    by_contra known
    obtain ⟨old, reached, rfl⟩ := tracks.only position known
    have visited : flow.stateAt? old ≠ none := (explored.reached old).2 reached
    have inside : old < code.instructions.length := by
      by_contra outside
      rw [← explored.size] at outside
      rw [Flow.stateAt?, Array.getElem?_eq_none (Nat.not_lt.1 outside)] at visited
      exact visited rfl
    obtain ⟨first, found, -⟩ := explored.span (List.getElem?_eq_getElem inside)
    have live := (explored.live_iff found).2 reached
    rw [Span.getElem?_replaced found live] at here
    cases here
    exact live dead
  · obtain ⟨old, found, rfl⟩ := Span.exists_place here dead
    rw [tracks.states old ((explored.live_iff found).1 dead)]
    exact (Span.getElem?_ofCode found).2

theorem Explored.ofCode_eq_replaced (explored : code.Explored flow) (proper : code.Proper depth)
    (done : code.withFlow major entry flow = .ok result)
    (tracks : Flow.Tracks (Span.place (Span.ofCode code flow.states)) code result flow other) :
    Span.ofCode result other.states = Span.replaced (Span.ofCode code flow.states) := by
  have chained := proper.chained explored
  have instructions : result.instructions =
      (Span.replaced (Span.ofCode code flow.states)).map Span.placed := by
    rw [instructions_withFlow done, Span.map_placed_replaced chained]
  have states : other.states.toList =
      (Span.replaced (Span.ofCode code flow.states)).map Span.state := by
    apply List.ext_getElem?
    intro position
    rw [List.getElem?_map, Array.getElem?_toList]
    cases here : (Span.replaced (Span.ofCode code flow.states))[position]? with
    | none =>
      have outside := List.getElem?_eq_none_iff.1 here
      apply Array.getElem?_eq_none
      rwa [tracks.room, instructions, List.length_map]
    | some span =>
      have inside : position < other.states.size := by
        rw [tracks.room, instructions, List.length_map]
        exact (List.getElem?_eq_some_iff.1 here).1
      have known := explored.stateAt?_replaced tracks here
      rw [Flow.stateAt?, Array.getElem?_eq_getElem inside, Option.join_some] at known
      rw [Array.getElem?_eq_getElem inside, known, Option.map_some]
  calc
    Span.ofCode result other.states =
        Span.zipped result.instructions result.length other.states.toList := rfl
    _ = Span.replaced (Span.ofCode code flow.states) := by
      rw [instructions, length_withFlow done, states,
        Span.zipped_of_chained (Span.chained_replaced chained)]

variable {context : FrameContext} {member : Member} {steps : Nat} {cache after : MetadataCache}

theorem Proper.recomputeWithin_again (proper : code.Proper depth) (tables : code.stackMaps.length ≤ 1)
    (done : code.recomputeWithin context major member steps cache = (.ok result, after)) :
    context.hierarchy.view after = context.hierarchy.view cache ∧
      ∀ again, context.hierarchy.view again = context.hierarchy.view cache →
        ∃ last, result.recomputeWithin context major member steps again = (.ok result, last) := by
  obtain ⟨entry, flow, analysed, made⟩ := recomputeWithin_eq_ok_iff.1 done
  have explored := proper.explored analysed
  have within := explored.placedIn proper made
  have repeats := repeats_analyze within context (context.hierarchy.view cache) member steps
  constructor
  · obtain ⟨-, -, -, -, kept, -⟩ := repeats cache cache (entry, flow) after rfl rfl analysed
    exact kept
  · intro again same
    obtain ⟨⟨start, other⟩, last, found, ⟨equal, tracks⟩, -, -⟩ :=
      repeats cache again (entry, flow) after rfl same analysed
    cases equal
    have spans := explored.ofCode_eq_replaced proper made tracks
    have settled := explored.withFlow_again proper tables made spans tracks.maxStack tracks.maxLocals
    exact ⟨last, recomputeWithin_eq_ok_iff.2 ⟨entry, other, found, settled⟩⟩

/-- A body as one is read, with at most one stack map table, that got frames is given back when frames
are computed for it again. This is so after the first computation, which leaves all answers about
classes as they were, and whatever is remembered of classes besides, if the answers are the same. -/
theorem recompute_again (proper : code.Proper depth) (tables : code.stackMaps.length ≤ 1)
    (done : code.recompute context major member cache = (.ok result, after)) :
    (∃ last, result.recompute context major member after = (.ok result, last)) ∧
      ∀ again, context.hierarchy.view again = context.hierarchy.view cache →
        ∃ last, result.recompute context major member again = (.ok result, last) := by
  obtain ⟨kept, given⟩ := proper.recomputeWithin_again tables done
  exact ⟨given after kept, given⟩

/-- The dead instruction becomes one that throws, and the handlers around it are carved once. -/
theorem splitBody_again : ∃ result after last,
    splitBody.recompute ⟨⟨.empty, none⟩, "Main"⟩ 52 ⟨0x0008, "run", "(I)V", []⟩ .empty =
        (.ok result, after) ∧
      (result.instructions.map fun placed => (placed.offset, placed.instruction.opcode)) =
        [(0, Opcode.goto), (3, Opcode.athrow), (4, Opcode.voidReturn), (5, Opcode.athrow)] ∧
      result.handlers = [⟨0, 3, 5, none⟩, ⟨4, 5, 5, none⟩] ∧
      result.recompute ⟨⟨.empty, none⟩, "Main"⟩ 52 ⟨0x0008, "run", "(I)V", []⟩ after =
        (.ok result, last) := by
  have computed : (splitBody.recompute ⟨⟨.empty, none⟩, "Main"⟩ 52 ⟨0x0008, "run", "(I)V", []⟩
      .empty).1.toOption.map (fun result =>
        (result.instructions.map (fun placed => (placed.offset, placed.instruction.opcode)),
          result.handlers)) =
        some ([(0, Opcode.goto), (3, Opcode.athrow), (4, Opcode.voidReturn), (5, Opcode.athrow)],
          [⟨0, 3, 5, none⟩, ⟨4, 5, 5, none⟩]) := by
    decide +kernel
  cases ran : splitBody.recompute ⟨⟨.empty, none⟩, "Main"⟩ 52 ⟨0x0008, "run", "(I)V", []⟩ .empty with
  | mk outcome after =>
    rw [ran] at computed
    cases outcome with
    | error fault => cases computed
    | ok result =>
      obtain ⟨instructions, handlers⟩ := Prod.mk.inj (Option.some.inj computed)
      have tables : splitBody.stackMaps.length ≤ 1 := by decide
      obtain ⟨⟨last, again⟩, -⟩ := recompute_again proper_splitBody tables ran
      exact ⟨result, after, last, rfl, instructions, handlers, again⟩

end Code

end ClassRenaming
