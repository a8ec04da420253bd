import ClassRenaming.Proofs.CarvedHandlers
import ClassRenaming.Proofs.ReachedStates

/-!
The stack map table that a recomputed body gets. Its frames, expanded one after the other, say the
states that the analysis found; and there is a frame wherever a verifier asks for one: where a jump or
a handler leads, and behind every instruction that control does not leave downwards.
-/

namespace ClassRenaming

/-- The locals and the stack that a frame stands for, with one entry for a value. -/
structure Frame.Meaning where
  offset : Nat
  locals : List VerificationType
  stack : List VerificationType
  deriving DecidableEq, Repr, Inhabited

def Frame.meanings : List VerificationType → List Frame → List Frame.Meaning
  | _, [] => []
  | previous, frame :: rest =>
    let (locals, stack) := frame.kind.expand previous
    ⟨frame.offset, locals, stack⟩ :: meanings locals rest

theorem Frame.offset_meanings (previous : List VerificationType) (frames : List Frame) :
    (Frame.meanings previous frames).map Frame.Meaning.offset = frames.map Frame.offset := by
  induction frames generalizing previous with
  | nil => rfl
  | cons frame rest ih => simp [Frame.meanings, ih]

namespace FrameKind

theorem expand_compress (previous locals stack : List VerificationType) :
    expand previous (compress previous locals stack) = (locals, stack) := by
  unfold compress
  split
  · split
    · next same => simp [expand, same]
    · split
      · next fewer =>
        obtain ⟨shorter, few, front⟩ := fewer
        obtain ⟨rest, rfl⟩ := List.isPrefixOf_iff_prefix.1 front
        have count : ((locals ++ rest).length - locals.length).toUInt8.toNat =
            (locals ++ rest).length - locals.length := by
          simp only [Nat.toUInt8, UInt8.toNat_ofNat']
          omega
        simp only [expand, count, Prod.mk.injEq, and_true]
        simp
      · split
        · next more =>
          obtain ⟨rest, rfl⟩ := List.isPrefixOf_iff_prefix.1 more.2.2
          simp [expand]
        · rfl
  · split
    · next same => simp [expand, same]
    · rfl
  · rfl

end FrameKind

namespace Span

def meaning (span : Span) : Frame.Meaning :=
  let state := span.state.getD deadState
  ⟨span.placed.offset, state.localEntries, state.stackEntries⟩

/-- The spans that frames are put in front of: marked ones that were reached, and the first of each
unreachable range. -/
def framed (marked : Nat → Bool) : Bool → List Span → List Span
  | _, [] => []
  | inDead, span :: rest =>
    if span.isDead then
      if inDead then framed marked true rest else span :: framed marked true rest
    else if marked span.placed.offset then span :: framed marked false rest
    else framed marked false rest

theorem meaning_of_state {span : Span} {state : FrameState} (known : span.state = some state) :
    span.meaning = ⟨span.placed.offset, state.localEntries, state.stackEntries⟩ := by
  rw [meaning, known]
  rfl

theorem meaning_of_dead {span : Span} (dead : span.isDead) :
    span.meaning = ⟨span.placed.offset, [], [.object throwableName]⟩ := by
  rw [meaning, Option.isNone_iff_eq_none.1 dead]
  rfl

theorem meanings_frame (previous : List VerificationType) (offset : Nat) (state : FrameState)
    (rest : List Frame) :
    Frame.meanings previous (frame previous offset state :: rest) =
      ⟨offset, state.localEntries, state.stackEntries⟩ ::
        Frame.meanings state.localEntries rest := by
  simp [Frame.meanings, frame, FrameKind.expand_compress]

theorem meanings_frames (marked : Nat → Bool) (inDead : Bool) (previous : List VerificationType)
    (spans : List Span) :
    Frame.meanings previous (frames marked inDead previous spans) =
      (framed marked inDead spans).map meaning := by
  induction spans generalizing inDead previous with
  | nil => rfl
  | cons span rest ih =>
    rw [frames, framed]
    cases known : span.state with
    | none =>
      have dead : span.isDead := by simp [isDead, known]
      simp only [dead, if_true]
      split
      · exact ih true previous
      · rw [meanings_frame, List.map_cons, meaning_of_dead dead]
        exact congrArg _ (ih true [])
    | some state =>
      have live : ¬ span.isDead := by simp [isDead, known]
      rw [if_neg live]
      dsimp only
      split
      · rw [meanings_frame, List.map_cons, meaning_of_state known]
        exact congrArg _ (ih false _)
      · exact ih false previous

/-! Which spans have frames. -/

variable {marked : Nat → Bool} {inDead : Bool} {spans : List Span}

theorem framed_sublist (marked : Nat → Bool) (inDead : Bool) (spans : List Span) :
    (framed marked inDead spans).Sublist spans := by
  induction spans generalizing inDead with
  | nil => exact .slnil
  | cons span rest ih =>
    rw [framed]
    split
    · split
      · exact (ih true).cons span
      · exact (ih true).cons_cons span
    · split
      · exact (ih false).cons_cons span
      · exact (ih false).cons span

theorem mem_framed_of_marked {span : Span} (member : span ∈ spans) (live : ¬ span.isDead)
    (mark : marked span.placed.offset) : span ∈ framed marked inDead spans := by
  induction spans generalizing inDead with
  | nil => cases member
  | cons first rest ih =>
    rw [framed]
    rcases List.mem_cons.1 member with rfl | later
    · simp [live, mark]
    · have behind (inDead : Bool) : span ∈ framed marked inDead rest := ih later
      split <;> split <;> simp [behind]

theorem mem_framed_of_turn {position : Nat} {before span : Span}
    (here : spans[position]? = some before) (there : spans[position + 1]? = some span)
    (live : ¬ before.isDead) (dead : span.isDead) : span ∈ framed marked inDead spans := by
  induction spans generalizing position inDead with
  | nil => cases here
  | cons first rest ih =>
    rw [framed]
    cases position with
    | zero =>
      cases here
      rw [List.getElem?_cons_succ] at there
      cases rest with
      | nil => cases there
      | cons second rest =>
        cases there
        have first : span ∈ framed marked false (span :: rest) := by
          simp [framed, dead]
        rw [if_neg live]
        split
        · exact List.mem_cons_of_mem _ first
        · exact first
    | succ position =>
      have behind (inDead : Bool) : span ∈ framed marked inDead rest := ih here there
      split <;> split <;> simp [behind]

theorem turn_of_mem_framed {span : Span} (member : span ∈ framed marked inDead spans)
    (dead : span.isDead) :
    (spans[0]? = some span ∧ inDead = false) ∨ ∃ position before, spans[position]? = some before ∧
      spans[position + 1]? = some span ∧ ¬ before.isDead := by
  induction spans generalizing inDead with
  | nil => cases member
  | cons first rest ih =>
    have behind {inner : Bool} (later : span ∈ framed marked inner rest)
        (turn : inner = false → ¬ first.isDead) : ∃ position before,
          (first :: rest)[position]? = some before ∧ (first :: rest)[position + 1]? = some span ∧
            ¬ before.isDead := by
      rcases ih later with ⟨next, outside⟩ | ⟨position, before, here, there, live⟩
      · exact ⟨0, first, rfl, next, turn outside⟩
      · exact ⟨position + 1, before, here, there, live⟩
    rw [framed] at member
    split at member
    · split at member
      · exact .inr (behind member nofun)
      · next outside =>
        rcases List.mem_cons.1 member with rfl | later
        · exact .inl ⟨rfl, by simpa using outside⟩
        · exact .inr (behind later nofun)
    · next live =>
      split at member
      · rcases List.mem_cons.1 member with rfl | later
        · exact absurd dead live
        · exact .inr (behind later fun _ => live)
      · exact .inr (behind member fun _ => live)

/-! Instructions behind others, after dead code was replaced. -/

theorem offset_head_replaceDead {span : Span} {rest : List Span} {next : Placed}
    (positive : span.placed.offset < span.stop)
    (first : (replaceDead (span :: rest))[0]? = Option.some next) :
    next.offset = span.placed.offset := by
  rw [replaceDead] at first
  dsimp only at first
  split at first
  · by_cases one : span.stop - 1 - span.placed.offset = 0
    · rw [one, List.range'_zero, List.map_nil, List.nil_append] at first
      cases first
      simp only [simpleAt]
      omega
    · obtain ⟨count, more⟩ := Nat.exists_eq_succ_of_ne_zero one
      rw [more, Nat.succ_eq_add_one, List.range'_succ, List.map_cons] at first
      cases first
      rfl
  · cases first
    rfl

theorem getElem?_behind {α : Type} {front back : List α} {position : Nat} {item : α}
    (here : (front ++ back)[position]? = Option.some item) (absent : item ∉ front) :
    ∃ inner, position = front.length + inner ∧ back[inner]? = Option.some item := by
  rcases Nat.lt_or_ge position front.length with inside | outside
  · rw [List.getElem?_append_left inside] at here
    exact absurd (List.mem_of_getElem? here) absent
  · rw [List.getElem?_append_right outside] at here
    exact ⟨position - front.length, by omega, here⟩

/-- A span starts at an offset, and control does not come down to it from the span before: that one
was not reached while this one was, or its instruction ends a block. -/
def CutOff (spans : List Span) (offset : Nat) : Prop :=
  ∃ place first second, spans[place]? = Option.some first ∧
    spans[place + 1]? = Option.some second ∧ second.placed.offset = offset ∧
    (first.isDead → ¬ second.isDead) ∧ (¬ first.isDead → first.placed.instruction.endsBlock)

theorem CutOff.cons {spans : List Span} {offset : Nat} (cut : CutOff spans offset) (span : Span) :
    CutOff (span :: spans) offset := by
  obtain ⟨place, first, second, found⟩ := cut
  exact ⟨place + 1, first, second, found⟩

theorem cutOff_replaceDead {spans : List Span}
    (positive : ∀ span ∈ spans, span.placed.offset < span.stop) {position : Nat} {before next : Placed}
    (here : (replaceDead spans)[position]? = Option.some before)
    (there : (replaceDead spans)[position + 1]? = Option.some next)
    (ends : before.instruction.endsBlock) : CutOff spans next.offset := by
  induction spans generalizing position with
  | nil => cases here
  | cons span rest ih =>
    rw [List.forall_mem_cons] at positive
    have front (there : (replaceDead rest)[0]? = Option.some next)
        (dead : span.isDead → (rest.head?.map isDead).getD false = false)
        (live : ¬ span.isDead → span.placed.instruction.endsBlock) :
        CutOff (span :: rest) next.offset := by
      cases rest with
      | nil => cases there
      | cons second rest =>
        have starts := offset_head_replaceDead (positive.2 second List.mem_cons_self) there
        exact ⟨0, span, second, rfl, rfl, starts.symm, by simpa using dead, live⟩
    rw [replaceDead] at here there
    dsimp only at here there
    split at here
    · next dead =>
      rw [if_pos dead] at there
      obtain ⟨inner, rfl, at_⟩ := getElem?_behind here fun nop => by
        obtain ⟨offset, -, rfl⟩ := List.mem_map.1 nop
        cases ends
      rw [Nat.add_assoc, List.getElem?_append_right (Nat.le_add_right _ _),
        Nat.add_sub_cancel_left] at there
      cases inner with
      | zero =>
        cases at_
        refine front there (fun _ => ?_) fun live => absurd dead live
        by_contra more
        rw [Bool.not_eq_false] at more
        simp only [simpleAt, more, if_true] at ends
        cases ends
      | succ inner => exact (ih positive.2 at_ there).cons span
    · next live =>
      rw [if_neg live] at there
      cases position with
      | zero =>
        cases here
        exact front there (fun dead => absurd dead live) fun _ => ends
      | succ position => exact (ih positive.2 here there).cons span

variable {code : Code} {states : Array (Option FrameState)} {position : Nat}

theorem getElem?_ofCode {span : Span} (here : (ofCode code states)[position]? = Option.some span) :
    code.instructions[position]? = Option.some span.placed ∧
      states[position]?.join = span.state := by
  rw [ofCode, List.getElem?_map, Option.map_eq_some_iff] at here
  obtain ⟨⟨⟨placed, stop⟩, state⟩, at_, rfl⟩ := here
  obtain ⟨first, second⟩ := List.getElem?_zip_eq_some.1 at_
  rw [Array.getElem?_toList] at second
  exact ⟨(List.getElem?_zip_eq_some.1 first).1, by rw [second]; rfl⟩

theorem exists_ofCode (size : states.size = code.instructions.length) {placed : Placed}
    (here : code.instructions[position]? = Option.some placed) :
    ∃ span, (ofCode code states)[position]? = Option.some span ∧ span.placed = placed := by
  have all : (ofCode code states).map Span.placed = code.instructions :=
    map_placed_zipped (by simpa using size)
  rw [← all, List.getElem?_map, Option.map_eq_some_iff] at here
  exact here

end Span

theorem markOffsets_iff {length offset : Nat} {offsets : List Nat} :
    (markOffsets length offsets)[offset]?.getD false = true ↔ offset < length ∧ offset ∈ offsets := by
  have same : markOffsets length offsets =
      Code.startFlags length (offsets.map (Span.simpleAt Opcode.nop)) := by
    rw [markOffsets, Code.startFlags, List.foldl_map]
    rfl
  rw [same, ← Array.getD_eq_getD_getElem?, Code.startFlags_iff]
  simp [Code.IsStart, Span.simpleAt]

namespace Code

def frames? : CodeAttribute → Option (List Frame)
  | .stackMap frames => some frames
  | _ => none

def stackMaps (code : Code) : List (List Frame) := code.attributes.filterMap frames?

theorem stackMaps_carveHandlers (code : Code) (dead : List (Nat × Nat)) :
    (code.carveHandlers dead).stackMaps = code.stackMaps := by
  unfold carveHandlers
  dsimp only
  split
  · rfl
  · simp only [stackMaps, List.filterMap_map]
    apply List.filterMap_congr
    intro item _
    cases item <;> rfl

theorem frames?_table (frames : List Frame) :
    (setStackMap.table frames).filterMap frames? = if frames = [] then [] else [frames] := by
  cases frames <;> rfl

theorem frames?_replaceIn (frames : List Frame) (attributes : List CodeAttribute) :
    (setStackMap.replaceIn frames attributes).filterMap frames? =
      (if frames = [] then [] else [frames]) ++ (attributes.filterMap frames?).tail := by
  rw [← frames?_table]
  unfold setStackMap.replaceIn
  dsimp only
  induction attributes with
  | nil => simp
  | cons item rest ih =>
    cases item with
    | stackMap old => simp [frames?]
    | _ =>
      simp only [List.any_cons, Bool.false_or, Bool.not_false, List.takeWhile_cons_of_pos,
        List.dropWhile_cons_of_pos] at ih ⊢
      split at ih
      · next more =>
        rw [if_pos more]
        exact ih
      · next more =>
        rw [if_neg more]
        rw [List.filterMap_append] at ih ⊢
        exact ih

theorem stackMaps_setStackMap (frames : List Frame) (code : Code) :
    (setStackMap frames code).stackMaps =
      (if frames = [] then [] else [frames]) ++ code.stackMaps.tail :=
  frames?_replaceIn frames code.attributes

/-! The body that an analysis was made of. -/

def TurnsDead (code : Code) (position : Nat) : Prop :=
  ∃ before, position = before + 1 ∧ code.Reached before ∧ ¬ code.Reached position

/-- The states are those of the instructions that control can reach. -/
structure Explored (code : Code) (flow : Flow) : Prop where
  size : flow.states.size = code.instructions.length
  reached : ∀ position, flow.stateAt? position ≠ none ↔ code.Reached position

section Explored

variable {depth : Nat} {code : Code} {flow : Flow}

theorem Proper.chained (proper : code.Proper depth) (explored : code.Explored flow) :
    Span.Chained 0 (Span.ofCode code flow.states) code.length :=
  proper.chained_ofCode explored.size

theorem Explored.span (explored : code.Explored flow) {position : Nat} {placed : Placed}
    (here : code.instructions[position]? = some placed) :
    ∃ span, (Span.ofCode code flow.states)[position]? = some span ∧ span.placed = placed :=
  Span.exists_ofCode explored.size here

theorem Explored.live_iff (explored : code.Explored flow) {position : Nat} {span : Span}
    (here : (Span.ofCode code flow.states)[position]? = some span) :
    ¬ span.isDead ↔ code.Reached position := by
  rw [← explored.reached, Flow.stateAt?, (Span.getElem?_ofCode here).2, Span.isDead,
    Option.isNone_iff_eq_none]

theorem Proper.marked_of_jump (proper : code.Proper depth) (explored : code.Explored flow)
    {position target : Nat} {placed : Placed}
    (here : code.instructions[position]? = Option.some placed)
    (reached : code.Reached position) (jumps : target ∈ placed.instruction.branchTargets) :
    code.frameMarks flow target := by
  obtain ⟨span, at_, rfl⟩ := explored.span here
  have live := (explored.live_iff at_).2 reached
  obtain ⟨other, member, rfl⟩ := proper.targets _ (List.mem_of_getElem? here) _ jumps
  refine markOffsets_iff.2 ⟨proper.tiles.offset_lt member, List.mem_append_left _ ?_⟩
  refine List.mem_flatMap.2 ⟨span, List.mem_of_getElem? at_, ?_⟩
  rw [if_neg live]
  exact jumps

theorem Proper.marked_of_handler (proper : code.Proper depth) {handler : Handler}
    (member : handler ∈
      (code.carveHandlers (Span.deadRanges none (Span.ofCode code flow.states))).handlers) :
    code.frameMarks flow handler.target := by
  have listed := member
  rw [handlers_carveHandlers] at listed
  obtain ⟨whole, there, part⟩ := List.mem_flatMap.1 listed
  have fits := proper.fits there
  obtain ⟨same, -⟩ := Handler.sameCatch_carve _ fits.positive handler part
  obtain ⟨other, inside, starts⟩ := fits.target
  refine markOffsets_iff.2 ⟨?_, List.mem_append_right _ (List.mem_map_of_mem member)⟩
  rw [same.1, ← starts]
  exact proper.tiles.offset_lt inside

theorem Explored.outside (explored : code.Explored flow) (proper : code.Proper depth)
    {position : Nat} {span : Span} (here : (Span.ofCode code flow.states)[position]? = some span)
    (live : ¬ span.isDead) : ¬ ∃ range ∈ Span.deadRanges none (Span.ofCode code flow.states),
      Span.Inside range span.placed.offset := by
  have chained := proper.chained explored
  rw [Span.inside_deadRanges chained (by simp)]
  rintro (⟨range, listed, -⟩ | ⟨other, member, dead, inside⟩)
  · cases listed
  · have same := chained.unique member (List.mem_of_getElem? here) inside.1 inside.2
    rw [same] at dead
    exact live dead

theorem Explored.piece (explored : code.Explored flow) (proper : code.Proper depth)
    {position : Nat} {span : Span} (here : (Span.ofCode code flow.states)[position]? = some span)
    (live : ¬ span.isDead) {handler : Handler} (member : handler ∈ code.handlers)
    (covers : handler.Covers span.placed.offset) :
    ∃ piece ∈ (code.carveHandlers (Span.deadRanges none (Span.ofCode code flow.states))).handlers,
      piece.target = handler.target := by
  obtain ⟨piece, part, -⟩ := (Handler.covers_carve (Span.deadRanges none (Span.ofCode code flow.states))
    handler span.placed.offset).2 ⟨covers, explored.outside proper here live⟩
  obtain ⟨same, -⟩ := Handler.sameCatch_carve _ (proper.fits member).positive piece part
  refine ⟨piece, ?_, same.1⟩
  rw [handlers_carveHandlers]
  exact List.mem_flatMap.2 ⟨handler, member, part⟩

theorem Explored.start_of_piece (explored : code.Explored flow) (proper : code.Proper depth)
    {handler piece : Handler} (member : handler ∈ code.handlers)
    (part : piece ∈ handler.carve (Span.deadRanges none (Span.ofCode code flow.states))) :
    ∃ position placed, code.instructions[position]? = some placed ∧ code.Reached position ∧
      handler.Covers placed.offset := by
  have chained := proper.chained explored
  obtain ⟨-, nonempty⟩ := Handler.sameCatch_carve _ (proper.fits member).positive piece part
  obtain ⟨covers, outside⟩ := (Handler.covers_carve _ handler piece.start).1
    ⟨piece, part, Nat.le_refl _, nonempty⟩
  have fits := proper.fits member
  have short : handler.stop ≤ code.length := by
    rcases fits.stop with same | ⟨last, there, starts⟩
    · omega
    · have inside := proper.tiles.offset_lt there
      omega
  have before : piece.start < code.length := by
    have below := covers.2
    omega
  obtain ⟨span, listed, inside⟩ := chained.exists_span (Nat.zero_le _) before
  have live : ¬ span.isDead := by
    intro dead
    exact outside ((Span.inside_deadRanges chained (by simp) _).2 (.inr ⟨span, listed, dead, inside⟩))
  obtain ⟨position, at_⟩ := List.mem_iff_getElem?.1 listed
  refine ⟨position, span.placed, (Span.getElem?_ofCode at_).1, (explored.live_iff at_).1 live, ?_, ?_⟩
  · -- The entry starts where some span starts, which is not in the middle of this one.
    by_contra above
    obtain ⟨first, there, starts⟩ := fits.start
    obtain ⟨place, found⟩ := List.mem_iff_getElem?.1 there
    obtain ⟨other, here, same⟩ := explored.span found
    have low := covers.1
    have high := inside.2
    have equal := chained.unique listed (List.mem_of_getElem? here)
      (by rw [same]; omega) (by rw [same]; omega)
    rw [equal, same] at above
    omega
  · have low := inside.1
    have high := covers.2
    dsimp only at low
    omega

theorem Explored.marked_of_cutOff (explored : code.Explored flow) (proper : code.Proper depth)
    {position : Nat} {first second : Span}
    (here : (Span.ofCode code flow.states)[position]? = some first)
    (there : (Span.ofCode code flow.states)[position + 1]? = some second) (live : ¬ second.isDead)
    (ends : ¬ first.isDead → first.placed.instruction.endsBlock) :
    code.frameMarks flow second.placed.offset := by
  have at_ := (Span.getElem?_ofCode there).1
  have target := (explored.live_iff there).1 live
  rcases Relation.ReflTransGen.cases_tail target with first | ⟨source, reached, leads⟩
  · cases first
  · cases leads with
    | jump from_ to_ jumps =>
      rw [at_] at to_
      cases to_
      exact proper.marked_of_jump explored from_ reached jumps
    | fall from_ to_ goes behind =>
      cases behind
      rw [(Span.getElem?_ofCode here).1] at from_
      cases from_
      exact absurd (ends ((explored.live_iff here).2 reached)) goes
    | «catch» from_ to_ member start stop catches =>
      rw [at_] at to_
      cases to_
      obtain ⟨span, found, rfl⟩ := explored.span from_
      obtain ⟨piece, listed, same⟩ := explored.piece proper found
        ((explored.live_iff found).2 reached) member ⟨start, stop⟩
      rw [← catches, ← same]
      exact proper.marked_of_handler listed

/-- What the frames of a body say of the states that an analysis found in it, and where they are. -/
structure Framed (code : Code) (entry : FrameState) (flow : Flow) (result : Code)
    (frames : List Frame) : Prop where
  ascending : frames.Pairwise fun first second => first.offset < second.offset
  starts : ∀ frame ∈ frames, IsStart result.instructions frame.offset
  /-- Each stands for the state at its offset, or for a thrown value alone in front of a range. -/
  states : ∀ said ∈ Frame.meanings entry.localEntries frames, ∃ position placed,
    code.instructions[position]? = some placed ∧ placed.offset = said.offset ∧
      ((∃ state, flow.stateAt? position = some state ∧ said.locals = state.localEntries ∧
          said.stack = state.stackEntries) ∨
        code.TurnsDead position ∧ said.locals = [] ∧ said.stack = [.object throwableName])
  ranges : ∀ position placed, code.instructions[position]? = some placed →
    code.TurnsDead position → placed.offset ∈ frames.map Frame.offset
  jumps : ∀ position placed, code.instructions[position]? = some placed → code.Reached position →
    ∀ target ∈ placed.instruction.branchTargets, target ∈ frames.map Frame.offset
  handlers : ∀ handler ∈ result.handlers, handler.target ∈ frames.map Frame.offset
  blocks : ∀ position before next, result.instructions[position]? = some before →
    result.instructions[position + 1]? = some next → before.instruction.endsBlock →
      next.offset ∈ frames.map Frame.offset

theorem meanings_frameTable (code : Code) (entry : FrameState) (flow : Flow) :
    Frame.meanings entry.localEntries (code.frameTable entry flow) =
      (Span.framed (code.frameMarks flow) false (Span.ofCode code flow.states)).map Span.meaning :=
  Span.meanings_frames _ _ _ _

theorem offset_frameTable (code : Code) (entry : FrameState) (flow : Flow) :
    (code.frameTable entry flow).map Frame.offset =
      (Span.framed (code.frameMarks flow) false (Span.ofCode code flow.states)).map
        fun span => span.placed.offset := by
  rw [← Frame.offset_meanings entry.localEntries, meanings_frameTable, List.map_map]
  rfl

theorem Explored.framed_of_marked (explored : code.Explored flow) (entry : FrameState)
    {position : Nat} {placed : Placed} (here : code.instructions[position]? = some placed)
    (reached : code.Reached position) (mark : code.frameMarks flow placed.offset) :
    placed.offset ∈ (code.frameTable entry flow).map Frame.offset := by
  obtain ⟨span, at_, rfl⟩ := explored.span here
  rw [offset_frameTable]
  have live := (explored.live_iff at_).2 reached
  exact List.mem_map.2 ⟨span, Span.mem_framed_of_marked (List.mem_of_getElem? at_) live mark, rfl⟩

theorem Explored.framed_of_turnsDead (explored : code.Explored flow) (entry : FrameState)
    {position : Nat} {placed : Placed} (here : code.instructions[position]? = some placed)
    (turns : code.TurnsDead position) :
    placed.offset ∈ (code.frameTable entry flow).map Frame.offset := by
  obtain ⟨before, rfl, reached, unreached⟩ := turns
  obtain ⟨span, at_, rfl⟩ := explored.span here
  have room := (List.getElem?_eq_some_iff.1 here).1
  obtain ⟨first, front, -⟩ := explored.span (List.getElem?_eq_getElem (l := code.instructions)
    (Nat.lt_of_succ_lt room))
  have live := (explored.live_iff front).2 reached
  have dead : span.isDead := by
    by_contra live
    exact unreached ((explored.live_iff at_).1 live)
  rw [offset_frameTable]
  exact List.mem_map.2 ⟨span, Span.mem_framed_of_turn front at_ live dead, rfl⟩

theorem Explored.said (explored : code.Explored flow) {entry : FrameState} {said : Frame.Meaning}
    (member : said ∈ Frame.meanings entry.localEntries (code.frameTable entry flow)) :
    ∃ position placed, code.instructions[position]? = some placed ∧
      placed.offset = said.offset ∧
        ((∃ state, flow.stateAt? position = some state ∧ said.locals = state.localEntries ∧
            said.stack = state.stackEntries) ∨
          code.TurnsDead position ∧ said.locals = [] ∧ said.stack = [.object throwableName]) := by
  rw [meanings_frameTable] at member
  obtain ⟨span, framed, rfl⟩ := List.mem_map.1 member
  obtain ⟨position, at_⟩ := List.mem_iff_getElem?.1 ((Span.framed_sublist _ _ _).subset framed)
  obtain ⟨here, known⟩ := Span.getElem?_ofCode at_
  cases found : span.state with
  | some state =>
    refine ⟨position, span.placed, here, rfl, .inl ⟨state, by rw [Flow.stateAt?, known, found], ?_⟩⟩
    simp [Span.meaning_of_state found]
  | none =>
    have dead : span.isDead := by simp [Span.isDead, found]
    rcases Span.turn_of_mem_framed framed dead with ⟨first, -⟩ | ⟨before, other, front, back, live⟩
    · -- The first instruction was reached.
      have live := (explored.live_iff first).2 .refl
      exact absurd dead live
    · have turns : code.TurnsDead (before + 1) :=
        ⟨before, rfl, (explored.live_iff front).1 live, fun reached =>
          (explored.live_iff back).2 reached dead⟩
      refine ⟨before + 1, span.placed, (Span.getElem?_ofCode back).1, rfl, .inr ⟨turns, ?_⟩⟩
      simp [Span.meaning_of_dead dead]

theorem Proper.framed (proper : code.Proper depth) (explored : code.Explored flow)
    {major : UInt16} (version : stackMapVersion ≤ major) {entry : FrameState} {result : Code}
    (done : code.withFlow major entry flow = .ok result) :
    ∃ frames, result.stackMaps = (if frames = [] then [] else [frames]) ++ code.stackMaps.tail ∧
      code.Framed entry flow result frames := by
  have chained := proper.chained explored
  have longer := chained.offset_lt_stop
  obtain ⟨maxStack, maxLocals, rfl⟩ := eq_of_withFlow done
  rw [if_pos version]
  refine ⟨code.frameTable entry flow, ?_, ?_⟩
  · rw [stackMaps_setStackMap, ← stackMaps_carveHandlers code]
    rfl
  constructor
  case ascending =>
    have spans : (Span.ofCode code flow.states).Pairwise fun first second =>
        first.placed.offset < second.placed.offset := by
      refine chained.ascending.imp_of_mem fun here _ apart => ?_
      have inside := longer _ here
      omega
    have offsets := List.pairwise_map.2 (spans.sublist (Span.framed_sublist (code.frameMarks flow)
      false _))
    rw [← offset_frameTable code entry flow] at offsets
    exact List.pairwise_map.1 offsets
  case starts =>
    intro frame member
    have listed := List.mem_map_of_mem (f := Frame.offset) member
    rw [offset_frameTable] at listed
    obtain ⟨span, framed, starts⟩ := List.mem_map.1 listed
    rw [← starts]
    exact Span.isStart_replaceDead chained ((Span.framed_sublist _ _ _).subset framed)
  case states =>
    intro said member
    exact explored.said member
  case ranges =>
    intro position placed here turns
    exact explored.framed_of_turnsDead entry here turns
  case jumps =>
    intro position placed here reached target jumps
    have mark := proper.marked_of_jump explored here reached jumps
    obtain ⟨other, member, rfl⟩ := proper.targets _ (List.mem_of_getElem? here) _ jumps
    obtain ⟨next, there⟩ := List.mem_iff_getElem?.1 member
    exact explored.framed_of_marked entry there (reached.tail (.jump here there jumps)) mark
  case handlers =>
    intro piece member
    have mark := proper.marked_of_handler member
    change piece ∈ (code.carveHandlers _).handlers at member
    rw [handlers_carveHandlers] at member
    obtain ⟨whole, listed, part⟩ := List.mem_flatMap.1 member
    obtain ⟨position, placed, here, reached, start, stop⟩ :=
      explored.start_of_piece proper listed part
    have fits := proper.fits listed
    obtain ⟨⟨same, -⟩, -⟩ := Handler.sameCatch_carve _ fits.positive piece part
    obtain ⟨target, inside, starts⟩ := fits.target
    obtain ⟨next, there⟩ := List.mem_iff_getElem?.1 inside
    rw [same, ← starts] at mark ⊢
    exact explored.framed_of_marked entry there
      (reached.tail (.catch here there listed start stop starts.symm)) mark
  case blocks =>
    intro position before next here there ends
    obtain ⟨place, first, second, front, back, starts, alive, last⟩ :=
      Span.cutOff_replaceDead longer here there ends
    have found := (Span.getElem?_ofCode back).1
    rw [← starts]
    by_cases dead : second.isDead
    · have live : ¬ first.isDead := fun unreached => alive unreached dead
      refine explored.framed_of_turnsDead entry found ⟨place, rfl, (explored.live_iff front).1 live, ?_⟩
      exact fun reached => (explored.live_iff back).2 reached dead
    · have mark := explored.marked_of_cutOff proper front back dead last
      exact explored.framed_of_marked entry found ((explored.live_iff back).1 dead) mark

end Explored

theorem Proper.explored {depth : Nat} {code : Code} (proper : code.Proper depth)
    {context : FrameContext} {member : Member} {steps : Nat} {cache after : MetadataCache}
    {entry : FrameState} {flow : Flow}
    (done : code.analyze context member steps cache = (.ok (entry, flow), after)) :
    code.Explored flow := by
  have ran : ((code.analyze context member steps).run cache).1 = .ok (entry, flow) :=
    congrArg Prod.fst done
  have fixed := (gives_analyze context _ member code steps cache rfl).1
  have traced := (traced_analyze context _ member code steps cache rfl).1
  rw [ran] at fixed traced
  exact ⟨traced.size, stateAt?_iff_reached proper.tiles proper.nonempty fixed.2 traced⟩

theorem recomputeWithin_eq_ok_iff {context : FrameContext} {major : UInt16} {member : Member}
    {code result : Code} {steps : Nat} {cache after : MetadataCache} :
    code.recomputeWithin context major member steps cache = (.ok result, after) ↔
      ∃ entry flow, code.analyze context member steps cache = (.ok (entry, flow), after) ∧
        code.withFlow major entry flow = .ok result := by
  constructor
  · intro done
    obtain ⟨⟨entry, flow⟩, middle, first, second⟩ := ExceptT.run_bind_eq_ok.1 done
    dsimp only at second
    split at second
    · cases second
    · next found =>
      cases second
      exact ⟨entry, flow, first, found⟩
  · intro found
    obtain ⟨entry, flow, analysed, made⟩ := found
    refine (ExceptT.run_bind_ok analysed).trans ?_
    dsimp only
    rw [made]
    rfl

/-- If frames are computed for a body as one is read, in a class with stack map tables, then the
table that it gets says the states that the analysis found for the instructions that control can
reach, and has a frame wherever one is asked for. A second table of the body, if there is one, stays
as it was. -/
theorem recompute_framed {context : FrameContext} {major : UInt16} {member : Member}
    {code result : Code} {depth : Nat} {cache after : MetadataCache} (proper : code.Proper depth)
    (version : stackMapVersion ≤ major)
    (done : code.recompute context major member cache = (.ok result, after)) :
    ∃ entry flow frames, FrameState.onEntry context.owner member = .ok entry ∧
      code.analyze context member stepLimit cache = (.ok (entry, flow), after) ∧
      (∀ position, flow.stateAt? position ≠ none ↔ code.Reached position) ∧
      result.stackMaps = (if frames = [] then [] else [frames]) ++ code.stackMaps.tail ∧
      code.Framed entry flow result frames := by
  obtain ⟨entry, flow, analysed, found⟩ := recomputeWithin_eq_ok_iff.1 done
  have onEntry := onEntry_of_analyze analysed
  have explored := proper.explored analysed
  obtain ⟨frames, emitted, framed⟩ := proper.framed explored version found
  exact ⟨entry, flow, frames, onEntry, analysed, explored.reached, emitted, framed⟩

/-- A jump over an instruction that nothing leads to, in a handler that also covers the return. -/
def skippingBody : Code where
  maxStack := 0
  maxLocals := 1
  instructions := [⟨0, .jump Opcode.goto 4⟩, ⟨3, .simple Opcode.nop⟩, ⟨4, .simple Opcode.voidReturn⟩,
    ⟨5, .simple Opcode.athrow⟩]
  length := 6
  handlers := [⟨3, 5, 5, none⟩]
  attributes := []

theorem proper_skippingBody : skippingBody.Proper 0 where
  tiles := ⟨rfl, rfl, rfl, rfl, rfl⟩
  nonempty := List.cons_ne_nil _ _
  instructions := by
    intro placed member
    simp only [skippingBody, List.mem_cons, List.not_mem_nil, or_false] at member
    rcases member with rfl | rfl | rfl | rfl <;> simp [Instruction.Proper] <;> decide
  targets := by
    intro placed member target jumps
    simp only [skippingBody, List.mem_cons, List.not_mem_nil, or_false] at member
    rcases member with rfl | rfl | rfl | rfl <;> simp [Instruction.branchTargets] at jumps
    subst jumps
    exact ⟨⟨4, .simple Opcode.voidReturn⟩, by simp [skippingBody], rfl⟩
  handlers := by
    intro handler member
    rw [List.mem_singleton.1 member]
    refine ⟨⟨⟨3, .simple Opcode.nop⟩, by simp [skippingBody], rfl⟩,
      ⟨⟨5, .simple Opcode.athrow⟩, by simp [skippingBody], rfl⟩,
      .inr ⟨⟨5, .simple Opcode.athrow⟩, by simp [skippingBody], rfl⟩, by decide⟩
  attributes := by simp [skippingBody]

theorem skippingBody_framed : ∃ result after entry flow,
    skippingBody.recompute ⟨⟨.empty, none⟩, "Main"⟩ 52 ⟨0x0008, "run", "(I)V", []⟩ .empty =
        (.ok result, after) ∧
      skippingBody.Framed entry flow result
        [⟨3, .full [] [.object throwableName]⟩, ⟨4, .append [.integer]⟩,
          ⟨5, .sameWithItem (.object throwableName)⟩] := by
  have computed : (skippingBody.recompute ⟨⟨.empty, none⟩, "Main"⟩ 52 ⟨0x0008, "run", "(I)V", []⟩
      .empty).1.toOption.map stackMaps = some [[⟨3, .full [] [.object throwableName]⟩,
        ⟨4, .append [.integer]⟩, ⟨5, .sameWithItem (.object throwableName)⟩]] := by
    decide +kernel
  cases ran : skippingBody.recompute ⟨⟨.empty, none⟩, "Main"⟩ 52 ⟨0x0008, "run", "(I)V", []⟩ .empty with
  | mk outcome after =>
    rw [ran] at computed
    cases outcome with
    | error fault => cases computed
    | ok result =>
      obtain ⟨entry, flow, frames, -, -, -, emitted, framed⟩ :=
        recompute_framed proper_skippingBody (by decide) ran
      have tables : result.stackMaps = _ := Option.some.inj computed
      refine ⟨result, after, entry, flow, rfl, ?_⟩
      rw [tables] at emitted
      cases frames with
      | nil => cases emitted
      | cons frame rest =>
        rw [if_neg (List.cons_ne_nil _ _)] at emitted
        rw [(List.cons.inj emitted).1]
        exact framed

end Code

end ClassRenaming
