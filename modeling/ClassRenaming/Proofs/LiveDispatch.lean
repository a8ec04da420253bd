import ClassRenaming.Proofs.EmittedFrames

/-!
What carving leaves of an exception table. At every byte of a reached instruction the entries that
are tried, in their order, catch the same exceptions and lead to the same handlers as before; no
entry is left at a byte that is not reached, and every entry leads to an instruction that is. A type
annotation on an entry stays with a piece of it, and is gone only with all pieces.
-/

namespace ClassRenaming

/-! Entries around a byte. -/

namespace Handler

instance (handler : Handler) (offset : Nat) : Decidable (handler.Covers offset) :=
  inferInstanceAs (Decidable (_ ∧ _))

/-- Where exceptions at a byte of the code may go, and which, in the order in which it is tried. -/
def dispatch (handlers : List Handler) (offset : Nat) : List (Nat × Option String) :=
  (handlers.filter fun handler => handler.Covers offset).map fun handler =>
    (handler.target, handler.catchType)

theorem dispatch_append (first second : List Handler) (offset : Nat) :
    dispatch (first ++ second) offset = dispatch first offset ++ dispatch second offset := by
  simp [dispatch]

theorem dispatch_cons (handler : Handler) (rest : List Handler) (offset : Nat) :
    dispatch (handler :: rest) offset = dispatch [handler] offset ++ dispatch rest offset :=
  dispatch_append [handler] rest offset

theorem dispatch_of_covers {handler : Handler} {offset : Nat} (covers : handler.Covers offset) :
    dispatch [handler] offset = [(handler.target, handler.catchType)] := by
  simp [dispatch, covers]

theorem dispatch_of_not_covers {handler : Handler} {offset : Nat}
    (outside : ¬ handler.Covers offset) : dispatch [handler] offset = [] := by
  simp [dispatch, outside]

theorem dispatch_nonempty (handlers : List Handler) (offset : Nat) :
    dispatch (handlers.filter fun handler => handler.start < handler.stop) offset =
      dispatch handlers offset := by
  have same : ∀ handler : Handler, (decide (handler.Covers offset) &&
      decide (handler.start < handler.stop)) = decide (handler.Covers offset) := by
    intro handler
    rw [Bool.eq_iff_iff, Bool.and_eq_true, decide_eq_true_iff, decide_eq_true_iff]
    simp only [Covers]
    omega
  simp only [dispatch, List.filter_filter, same]

variable {range : Nat × Nat} {offset : Nat}

theorem dispatch_without (ordered : range.1 ≤ range.2) (outside : ¬ Span.Inside range offset)
    (handler : Handler) : dispatch (handler.without range) offset = dispatch [handler] offset := by
  simp only [Span.Inside] at outside
  rw [without, dispatch_nonempty, dispatch_cons]
  by_cases covers : handler.Covers offset
  · rw [dispatch_of_covers covers]
    simp only [Covers] at covers
    by_cases before : offset < range.1
    · rw [dispatch_of_covers (by simp only [Covers]; omega),
        dispatch_of_not_covers (by simp only [Covers]; omega), List.append_nil]
    · rw [dispatch_of_not_covers (by simp only [Covers]; omega),
        dispatch_of_covers (by simp only [Covers]; omega), List.nil_append]
  · rw [dispatch_of_not_covers covers]
    simp only [Covers] at covers
    rw [dispatch_of_not_covers (by simp only [Covers]; omega),
      dispatch_of_not_covers (by simp only [Covers]; omega), List.append_nil]

theorem dispatch_flatMap {pieces : Handler → List Handler}
    (each : ∀ handler, dispatch (pieces handler) offset = dispatch [handler] offset)
    (handlers : List Handler) : dispatch (handlers.flatMap pieces) offset = dispatch handlers offset := by
  induction handlers with
  | nil => rfl
  | cons handler rest ih => rw [List.flatMap_cons, dispatch_append, each, ih, ← dispatch_cons]

theorem dispatch_carve {dead : List (Nat × Nat)} (ordered : ∀ range ∈ dead, range.1 ≤ range.2)
    (outside : ¬ ∃ range ∈ dead, Span.Inside range offset) (handler : Handler) :
    dispatch (handler.carve dead) offset = dispatch [handler] offset := by
  have each : ∀ pieces : List Handler,
      dispatch (dead.foldl (fun pieces range => pieces.flatMap (without range)) pieces) offset =
        dispatch pieces offset := by
    induction dead with
    | nil => simp
    | cons range rest ih =>
      intro pieces
      simp only [List.mem_cons, exists_eq_or_imp, not_or] at outside
      simp only [List.mem_cons, forall_eq_or_imp] at ordered
      rw [List.foldl_cons, ih ordered.2 outside.2,
        dispatch_flatMap (dispatch_without ordered.1 outside.1)]
  exact each [handler]

theorem carve_eq_nil_iff {handler : Handler} (positive : handler.start < handler.stop)
    (dead : List (Nat × Nat)) : handler.carve dead = [] ↔
      ∀ offset, handler.Covers offset → ∃ range ∈ dead, Span.Inside range offset := by
  constructor
  · intro empty offset covers
    by_contra outside
    obtain ⟨piece, left, -⟩ := (covers_carve dead handler offset).2 ⟨covers, outside⟩
    simp [empty] at left
  · intro all
    by_contra left
    obtain ⟨piece, member⟩ := List.exists_mem_of_ne_nil _ left
    obtain ⟨-, nonempty⟩ := sameCatch_carve dead positive piece member
    obtain ⟨covers, outside⟩ := (covers_carve dead handler piece.start).1
      ⟨piece, member, Nat.le_refl _, nonempty⟩
    exact outside (all piece.start covers)

/-! The first piece of an entry. -/

theorem getElem?_firstPieces (dead : List (Nat × Nat)) {handlers : List Handler} {index : Nat}
    {handler : Handler} (here : handlers[index]? = some handler) (next : Nat) :
    ∃ position, (firstPieces dead next handlers)[index]? =
        some (if handler.carve dead = [] then none else some (next + position)) ∧
      ∀ piece ∈ (handler.carve dead).head?,
        (handlers.flatMap (carve dead))[position]? = some piece := by
  induction handlers generalizing index next with
  | nil => simp at here
  | cons first rest ih =>
    cases index with
    | zero =>
      simp only [List.getElem?_cons_zero, Option.some.injEq] at here
      subst here
      refine ⟨0, by simp [firstPieces], ?_⟩
      intro piece front
      obtain ⟨others, pieces⟩ := List.head?_eq_some_iff.1 front
      simp [pieces]
    | succ index =>
      rw [List.getElem?_cons_succ] at here
      obtain ⟨position, found, behind⟩ := ih here (next + (first.carve dead).length)
      refine ⟨(first.carve dead).length + position, ?_, ?_⟩
      · simpa [firstPieces, Nat.add_assoc] using found
      · intro piece front
        rw [List.flatMap_cons, List.getElem?_append_right (Nat.le_add_right _ _),
          Nat.add_sub_cancel_left]
        exact behind piece front

end Handler

/-! Ranges that are not reached. -/

namespace Span

theorem ordered_deadRanges {start stop : Nat} {spans : List Span}
    (chained : Chained start spans stop) (pending : Option (Nat × Nat))
    (open_ : ∀ range ∈ pending, range.1 < start ∧ range.2 = start) :
    ∀ range ∈ deadRanges pending spans, range.1 < range.2 := by
  induction spans generalizing start pending with
  | nil =>
    intro range member
    have before := open_ range (Option.mem_toList.1 member)
    omega
  | cons span rest ih =>
    obtain ⟨starts, ends, later⟩ := chained
    have positive := span.placed.instruction.size_pos start
    rw [deadRanges]
    split
    · apply ih later _
      intro range member
      simp only [Option.mem_def, Option.some.injEq] at member
      subst member
      cases pending with
      | none =>
        simp only [Option.map_none, Option.getD_none, and_true]
        omega
      | some range =>
        have before := open_ range rfl
        simp only [Option.map_some, Option.getD_some, and_true]
        omega
    · intro range member
      rcases List.mem_append.1 member with closed | behind
      · have before := open_ range (Option.mem_toList.1 closed)
        omega
      · exact ih later none (by simp) range behind

def Has (span : Span) (offset : Nat) : Prop := Inside (span.placed.offset, span.stop) offset

theorem Chained.eq_of_has {start stop : Nat} {spans : List Span} (chained : Chained start spans stop)
    {first second : Span} (here : first ∈ spans) (there : second ∈ spans) {offset : Nat}
    (inFirst : first.Has offset) (inSecond : second.Has offset) : first = second := by
  simp only [Has, Inside] at inFirst inSecond
  by_cases before : first.placed.offset ≤ second.placed.offset
  · exact chained.unique here there before (by omega)
  · exact (chained.unique there here (by omega) (by omega)).symm

theorem Chained.inside_dead_iff {start stop : Nat} {spans : List Span}
    (chained : Chained start spans stop) {span : Span} (here : span ∈ spans) {offset : Nat}
    (has : span.Has offset) :
    (∃ range ∈ deadRanges none spans, Inside range offset) ↔ span.isDead := by
  rw [inside_deadRanges chained (by simp)]
  constructor
  · intro found
    rcases found with ⟨range, listed, -⟩ | ⟨other, there, dead, inside⟩
    · cases listed
    · rwa [chained.eq_of_has here there has inside]
  · intro dead
    exact .inr ⟨span, here, dead, has⟩

end Span

/-! Annotations on entries. -/

def CodeAttribute.moveTypes (move : TypeAnnotation → Option TypeAnnotation) :
    CodeAttribute → CodeAttribute
  | .typeAnnotations visibility annotations =>
    .typeAnnotations visibility (annotations.filterMap move)
  | other => other

theorem CodeAttribute.moveTypes_some (item : CodeAttribute) : item.moveTypes some = item := by
  cases item <;> simp [moveTypes]

theorem CodeAttribute.moveCatch_eq (moved : List (Option Nat)) :
    CodeAttribute.moveCatch moved = moveTypes (·.moveCatch? moved) := by
  funext item
  cases item <;> rfl

/-- What has become of type annotations when a table was carved: one on an entry is on a piece of it
for the same exceptions and the same handler, and is dropped just when no byte of the entry is
reached; the others are as they were. -/
structure TypeAnnotation.FollowsPieces (spans : List Span) (handlers carved : List Handler)
    (move : TypeAnnotation → Option TypeAnnotation) : Prop where
  others : ∀ item, (∀ index, item.target ≠ .catch index) → move item = some item
  dropped : ∀ item index handler, item.target = .catch index →
    handlers[index.toNat]? = some handler →
      (move item = none ↔
        ∀ offset, handler.Covers offset → ∃ span ∈ spans, span.isDead ∧ span.Has offset)
  kept : ∀ item index handler, item.target = .catch index →
    handlers[index.toNat]? = some handler → ∀ left, move item = some left →
      ∃ next piece, left = { item with target := .catch next } ∧
        carved[next.toNat]? = some piece ∧ piece.SameCatch handler ∧
          ∀ offset, piece.Covers offset → handler.Covers offset

structure Code.KeepsDispatch (code carved : Code) (spans : List Span) : Prop where
  live : ∀ span ∈ spans, ¬ span.isDead → ∀ offset, span.Has offset →
    Handler.dispatch carved.handlers offset = Handler.dispatch code.handlers offset
  dead : ∀ span ∈ spans, span.isDead → ∀ offset, span.Has offset →
    ∀ piece ∈ carved.handlers, ¬ piece.Covers offset
  nonempty : ∀ piece ∈ carved.handlers, piece.start < piece.stop
  target : ∀ piece ∈ carved.handlers,
    ∃ span ∈ spans, ¬ span.isDead ∧ span.placed.offset = piece.target
  annotations : ∃ move, carved.attributes = code.attributes.map (CodeAttribute.moveTypes move) ∧
    TypeAnnotation.FollowsPieces spans code.handlers carved.handlers move

namespace TypeAnnotation

variable {item : TypeAnnotation} {index : UInt16} {moved : List (Option Nat)}

theorem moveCatch?_of_dropped (target : item.target = .catch index)
    (gone : moved[index.toNat]? = some none) : item.moveCatch? moved = none := by
  simp [moveCatch?, target, gone]

theorem moveCatch?_of_moved (target : item.target = .catch index) {position : Nat}
    (found : moved[index.toNat]? = some (some position)) (small : position < 65536) :
    item.moveCatch? moved = some { item with target := .catch position.toUInt16 } := by
  simp [moveCatch?, target, found, small]

/-- How annotations move when some ranges are carved out of a table: not at all, if the first pieces
of all entries are where the entries were. -/
def move (dead : List (Nat × Nat)) (handlers : List Handler) :
    TypeAnnotation → Option TypeAnnotation :=
  let moved := Handler.firstPieces dead 0 handlers
  if moved = (List.range moved.length).map some then some else moveCatch? moved

theorem move_catch {dead : List (Nat × Nat)} {handlers : List Handler} {handler : Handler}
    (short : (handlers.flatMap (Handler.carve dead)).length ≤ 65535)
    (target : item.target = .catch index) (here : handlers[index.toNat]? = some handler) :
    (handler.carve dead = [] ∧ move dead handlers item = none) ∨
      ∃ next piece, move dead handlers item = some { item with target := .catch next } ∧
        (handlers.flatMap (Handler.carve dead))[next.toNat]? = some piece ∧
          piece ∈ handler.carve dead := by
  obtain ⟨position, found, behind⟩ := Handler.getElem?_firstPieces dead here 0
  -- Where nothing moves, every entry is the first piece of itself.
  have still : Handler.firstPieces dead 0 handlers =
      (List.range (Handler.firstPieces dead 0 handlers).length).map some →
        (Handler.firstPieces dead 0 handlers)[index.toNat]? = some (some index.toNat) := by
    intro same
    have inside := (List.getElem?_eq_some_iff.1 found).1
    rw [same]
    simp [inside]
  by_cases gone : handler.carve dead = []
  · rw [if_pos gone] at found
    have moves : ¬ Handler.firstPieces dead 0 handlers =
        (List.range (Handler.firstPieces dead 0 handlers).length).map some := by
      intro same
      rw [still same] at found
      cases found
    simp only [move, if_neg moves]
    exact .inl ⟨gone, moveCatch?_of_dropped target found⟩
  · obtain ⟨piece, others, pieces⟩ := List.exists_cons_of_ne_nil gone
    rw [if_neg gone, Nat.zero_add] at found
    have listed := behind piece (by simp [pieces])
    have inside := (List.getElem?_eq_some_iff.1 listed).1
    have part : piece ∈ handler.carve dead := by simp [pieces]
    right
    by_cases same : Handler.firstPieces dead 0 handlers =
        (List.range (Handler.firstPieces dead 0 handlers).length).map some
    · rw [still same] at found
      simp only [Option.some.injEq] at found
      subst found
      refine ⟨index, piece, ?_, listed, part⟩
      simp only [move, if_pos same, ← target]
    · have small : position.toUInt16.toNat = position := by
        simp only [Nat.toUInt16, UInt16.toNat_ofNat']
        omega
      refine ⟨position.toUInt16, piece, ?_, ?_, part⟩
      · simp only [move, if_neg same]
        exact moveCatch?_of_moved target found (by omega)
      · rwa [small]

theorem move_other (dead : List (Nat × Nat)) (handlers : List Handler)
    (other : ∀ index, item.target ≠ .catch index) : move dead handlers item = some item := by
  unfold move
  split
  · rfl
  · unfold moveCatch?
    split
    · next index target => exact absurd target (other index)
    · rfl

end TypeAnnotation

namespace Code

section Carving

variable {depth : Nat} {code : Code} {flow : Flow}

theorem attributes_carveHandlers (code : Code) (dead : List (Nat × Nat)) :
    (code.carveHandlers dead).attributes =
      code.attributes.map (CodeAttribute.moveTypes (·.move dead code.handlers)) := by
  unfold carveHandlers TypeAnnotation.move
  dsimp only
  split
  · rw [funext CodeAttribute.moveTypes_some, List.map_id']
  · rw [CodeAttribute.moveCatch_eq]

theorem Explored.target_of_piece (explored : code.Explored flow) (proper : code.Proper depth)
    {piece : Handler} (member : piece ∈ (code.carveHandlers (code.deadRanges flow)).handlers) :
    ∃ span ∈ Span.ofCode code flow.states, ¬ span.isDead ∧ span.placed.offset = piece.target := by
  rw [handlers_carveHandlers] at member
  obtain ⟨handler, listed, part⟩ := List.mem_flatMap.1 member
  have fits := proper.fits listed
  obtain ⟨⟨same, -⟩, -⟩ := Handler.sameCatch_carve _ fits.positive piece part
  obtain ⟨position, placed, here, reached, start, stop⟩ :=
    explored.start_of_piece proper listed part
  obtain ⟨target, inside, starts⟩ := fits.target
  obtain ⟨next, there⟩ := List.mem_iff_getElem?.1 inside
  have leads : code.Leads position next := .catch here there listed start stop starts.symm
  obtain ⟨span, found, rfl⟩ := explored.span there
  refine ⟨span, List.mem_of_getElem? found, (explored.live_iff found).2 (reached.tail leads), ?_⟩
  rw [same, starts]

theorem Explored.followsPieces (explored : code.Explored flow) (proper : code.Proper depth)
    (short : (code.carveHandlers (code.deadRanges flow)).handlers.length ≤ 65535) :
    TypeAnnotation.FollowsPieces (Span.ofCode code flow.states) code.handlers
      (code.carveHandlers (code.deadRanges flow)).handlers
      (·.move (code.deadRanges flow) code.handlers) := by
  rw [handlers_carveHandlers] at short ⊢
  have chained := proper.chained explored
  have inside (offset : Nat) : (∃ range ∈ code.deadRanges flow, Span.Inside range offset) ↔
      ∃ span ∈ Span.ofCode code flow.states, span.isDead ∧ span.Has offset := by
    rw [deadRanges, Span.inside_deadRanges chained (by simp)]
    simp [Span.Has]
  constructor
  case others =>
    intro item other
    exact TypeAnnotation.move_other _ _ other
  case dropped =>
    intro item index handler target here
    have positive := (proper.fits (List.mem_of_getElem? here)).positive
    simp only [← inside]
    rw [← Handler.carve_eq_nil_iff positive]
    rcases TypeAnnotation.move_catch short target here with ⟨gone, empty⟩ | ⟨next, piece, left, -, part⟩
    · simp [gone, empty]
    · simp [left, List.ne_nil_of_mem part]
  case kept =>
    intro item index handler target here left moved
    have positive := (proper.fits (List.mem_of_getElem? here)).positive
    rcases TypeAnnotation.move_catch short target here with ⟨-, gone⟩ | ⟨next, piece, found, at_, part⟩
    · rw [gone] at moved
      cases moved
    · rw [found] at moved
      cases moved
      refine ⟨next, piece, rfl, at_, (Handler.sameCatch_carve _ positive piece part).1, ?_⟩
      intro offset covers
      exact ((Handler.covers_carve _ handler offset).1 ⟨piece, part, covers⟩).1

theorem Explored.dispatch_carved (explored : code.Explored flow) (proper : code.Proper depth)
    {span : Span} (here : span ∈ Span.ofCode code flow.states) (live : ¬ span.isDead) {offset : Nat}
    (has : span.Has offset) :
    Handler.dispatch (code.carveHandlers (code.deadRanges flow)).handlers offset =
      Handler.dispatch code.handlers offset := by
  have chained := proper.chained explored
  have outside : ¬ ∃ range ∈ code.deadRanges flow, Span.Inside range offset := by
    rwa [deadRanges, chained.inside_dead_iff here has]
  have ordered : ∀ range ∈ code.deadRanges flow, range.1 ≤ range.2 := fun range member =>
    Nat.le_of_lt (Span.ordered_deadRanges chained none (by simp) range member)
  rw [handlers_carveHandlers]
  exact Handler.dispatch_flatMap (Handler.dispatch_carve ordered outside) code.handlers

theorem Explored.keepsDispatch (explored : code.Explored flow) (proper : code.Proper depth)
    (short : (code.carveHandlers (code.deadRanges flow)).handlers.length ≤ 65535) :
    code.KeepsDispatch (code.carveHandlers (code.deadRanges flow))
      (Span.ofCode code flow.states) := by
  have chained := proper.chained explored
  have piece_of {piece : Handler}
      (member : piece ∈ (code.carveHandlers (code.deadRanges flow)).handlers) :
      ∃ handler ∈ code.handlers, piece ∈ handler.carve (code.deadRanges flow) := by
    rw [handlers_carveHandlers] at member
    exact List.mem_flatMap.1 member
  constructor
  case live =>
    intro span here live offset has
    exact explored.dispatch_carved proper here live has
  case dead =>
    intro span here dead offset has piece member covers
    obtain ⟨handler, listed, part⟩ := piece_of member
    have outside := ((Handler.covers_carve _ handler offset).1 ⟨piece, part, covers⟩).2
    exact outside ((chained.inside_dead_iff here has).2 dead)
  case nonempty =>
    intro piece member
    obtain ⟨handler, listed, part⟩ := piece_of member
    exact (Handler.sameCatch_carve _ (proper.fits listed).positive piece part).2
  case target =>
    intro piece member
    exact explored.target_of_piece proper member
  case annotations =>
    exact ⟨_, attributes_carveHandlers code _, explored.followsPieces proper short⟩

/-- If a body as one is read was analysed, it has states for the instructions that control can reach.
If its exception table is not too long without the ranges that were not reached, then this table catches
at every byte of a reached instruction what the old one did, has no entry for other bytes, and type
annotations on entries go with them; a body with new frames has this table. -/
theorem analyze_keepsDispatch {context : FrameContext} {member : Member} {steps : Nat}
    {cache after : MetadataCache} {entry : FrameState} (proper : code.Proper depth)
    (done : code.analyze context member steps cache = (.ok (entry, flow), after))
    (short : (code.carveHandlers (code.deadRanges flow)).handlers.length ≤ 65535) :
    (∀ position span, (Span.ofCode code flow.states)[position]? = some span →
      (¬ span.isDead ↔ code.Reached position)) ∧
    code.KeepsDispatch (code.carveHandlers (code.deadRanges flow)) (Span.ofCode code flow.states) ∧
      ∀ major result, code.withFlow major entry flow = .ok result →
        result.handlers = (code.carveHandlers (code.deadRanges flow)).handlers := by
  have explored := proper.explored done
  refine ⟨?_, explored.keepsDispatch proper short, ?_⟩
  · intro position span here
    exact explored.live_iff here
  · intro major result made
    obtain ⟨maxStack, maxLocals, rfl⟩ := eq_of_withFlow made
    rfl

end Carving

/-- The skipped instruction has an entry of its own, which goes away, and is in the middle of a second
one, which leaves two pieces. Both caught types are annotated. -/
def splitBody : Code :=
  { skippingBody with
    handlers := [⟨3, 4, 5, some "java/io/IOException"⟩, ⟨0, 5, 5, none⟩]
    attributes := [.typeAnnotations .visible
      [⟨0x42, .catch 0, [], ⟨"Ljavax/annotation/Nonnull;", []⟩⟩,
        ⟨0x42, .catch 1, [], ⟨"Ljavax/annotation/Nonnull;", []⟩⟩]] }

theorem proper_splitBody : splitBody.Proper 0 where
  tiles := proper_skippingBody.tiles
  nonempty := proper_skippingBody.nonempty
  instructions := proper_skippingBody.instructions
  targets := proper_skippingBody.targets
  handlers := by
    have starts : ∀ offset ∈ [0, 3, 4, 5], IsStart splitBody.instructions offset := by
      simp [IsStart, splitBody, skippingBody]
    intro handler member
    simp only [splitBody, List.mem_cons, List.not_mem_nil, or_false] at member
    rcases member with rfl | rfl
    · exact ⟨starts 3 (by simp), starts 5 (by simp), .inr (starts 4 (by simp)), by decide⟩
    · exact ⟨starts 0 (by simp), starts 5 (by simp), .inr (starts 5 (by simp)), by decide⟩
  attributes := by simp [splitBody, CodeAttribute.Proper, TypeTarget.Matches]

theorem splitBody_keepsDispatch : ∃ entry flow after,
    splitBody.analyze ⟨⟨.empty, none⟩, "Main"⟩ ⟨0x0008, "run", "(I)V", []⟩ stepLimit .empty =
        (.ok (entry, flow), after) ∧
      (splitBody.carveHandlers (splitBody.deadRanges flow)).handlers =
        [⟨0, 3, 5, none⟩, ⟨4, 5, 5, none⟩] ∧
      splitBody.KeepsDispatch (splitBody.carveHandlers (splitBody.deadRanges flow))
        (Span.ofCode splitBody flow.states) := by
  have computed : (splitBody.analyze ⟨⟨.empty, none⟩, "Main"⟩ ⟨0x0008, "run", "(I)V", []⟩ stepLimit
      .empty).1.toOption.map (fun found =>
        (splitBody.carveHandlers (splitBody.deadRanges found.2)).handlers) =
          some [⟨0, 3, 5, none⟩, ⟨4, 5, 5, none⟩] := by
    decide +kernel
  cases ran : splitBody.analyze ⟨⟨.empty, none⟩, "Main"⟩ ⟨0x0008, "run", "(I)V", []⟩ stepLimit
      .empty with
  | mk outcome after =>
    rw [ran] at computed
    cases outcome with
    | error fault => cases computed
    | ok found =>
      have left : (splitBody.carveHandlers (splitBody.deadRanges found.2)).handlers = _ :=
        Option.some.inj computed
      obtain ⟨-, keeps, -⟩ := analyze_keepsDispatch proper_splitBody ran (by rw [left]; decide)
      exact ⟨found.1, found.2, after, rfl, left, keeps⟩

end Code

end ClassRenaming
