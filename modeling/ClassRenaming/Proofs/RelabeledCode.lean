import ClassRenaming.Proofs.MappedTexts
import ClassRenaming.Proofs.RelabeledRuns

/-!
Bodies with new names. Frames are compressed by comparing types, and no two names become one, so the
frames of a body with new names are those that the body had, with new names; unreachable ranges and
the exception table do not depend on names at all.
-/

namespace ClassRenaming

section Attributes

variable (f : Relabeling)

def Frame.relabel (frame : Frame) : Frame :=
  { frame with kind := frame.kind.map (VerificationType.relabel f) }

def Relabeling.signature (text : String) : String := (Signature.mapped? f.name text .field).getD text

/-- Annotations name classes by descriptors only. -/
def Relabeling.texts : TextMap := ⟨f.descriptor, id, id, fun _ => f.signature⟩

def CodeAttribute.relabel : CodeAttribute → CodeAttribute
  | .stackMap frames => .stackMap (frames.map (Frame.relabel f))
  | .localVariables table => .localVariables (table.map (LocalVariable.mapTexts id f.descriptor))
  | .localVariableTypes table =>
    .localVariableTypes (table.map (LocalVariable.mapTexts id f.signature))
  | .typeAnnotations visibility annotations =>
    .typeAnnotations visibility (annotations.map fun item => item.mapTexts f.texts)
  | .lineNumbers lines => .lineNumbers lines
  | .unknown name info => .unknown name info

def Code.relabel (code : Code) : Code :=
  { code with
    instructions := code.instructions.map (Placed.relabel f)
    handlers := code.handlers.map (Handler.relabel f)
    attributes := code.attributes.map (CodeAttribute.relabel f) }

def Member.relabel (member : Member) : Member :=
  { member with descriptor := f.descriptor member.descriptor }

end Attributes

structure Code.WellNamed (code : Code) : Prop where
  operands : ∀ placed ∈ code.instructions, placed.instruction.WellNamed
  caught : ∀ handler ∈ code.handlers, ∀ name ∈ handler.catchType, ClassRenaming.WellNamed name

theorem Code.WellNamed.body {code : Code} (names : code.WellNamed) :
    (Body.ofCode code).WellNamed where
  operands placed member := names.operands placed (List.mem_toArray.1 member)
  caught := names.caught

section Bodies

variable {f : Relabeling}

theorem ofCode_relabel (f : Relabeling) (code : Code) :
    Body.ofCode (code.relabel f) = (Body.ofCode code).relabel f := by
  have positions : (Body.ofCode (code.relabel f)).positions = (Body.ofCode code).positions := by
    simp only [Body.ofCode, Code.relabel, List.zipIdx_map, List.foldl_map]
    rfl
  have instructions : (Body.ofCode (code.relabel f)).instructions =
      (Body.ofCode code).instructions.map (Placed.relabel f) := by
    simp only [Body.ofCode, Code.relabel, List.map_toArray]
  rw [Body.relabel, ← positions, ← instructions]
  rfl

theorem becomes_receiver {owner : String} (own : WellNamed owner) (member : Member) :
    (FrameState.receiver owner member).Becomes f
      (FrameState.receiver (f.name owner) (member.relabel f)) := by
  unfold FrameState.receiver
  simp only [Member.relabel, ne_eq, name_eq_object_iff]
  split
  · exact .self nofun
  · exact .object own

theorem becomes_ofParameters {types : List FieldType} (proper : ∀ type ∈ types, type.Proper) :
    List.Forall₂ (VerificationType.Becomes f) (FrameState.ofParameters types)
      (FrameState.ofParameters (types.map (FieldType.relabel f))) := by
  induction types with
  | nil => exact .nil
  | cons type rest ih =>
    rw [List.forall_mem_cons] at proper
    have first : (VerificationType.ofFieldType type).Becomes f _ := .ofFieldType proper.1
    have wide : (VerificationType.ofFieldType (type.relabel f)).isWide =
        (VerificationType.ofFieldType type).isWide := by
      rw [first.relabeled, VerificationType.isWide_relabel]
    have top : VerificationType.top.Becomes f .top := .self nofun
    rw [List.map_cons, FrameState.ofParameters, FrameState.ofParameters, List.flatMap_cons,
      List.flatMap_cons]
    dsimp only
    rw [wide]
    apply List.rel_append _ (ih proper.2)
    split
    · exact .cons first (.cons top .nil)
    · exact .cons first .nil

theorem echoes_onEntry {owner : String} (own : WellNamed owner) (member : Member) :
    Echoes (FrameState.Becomes f) (FrameState.onEntry owner member)
      (FrameState.onEntry (f.name owner) (member.relabel f)) := by
  apply (echoes_liftDescriptor (methodType_descriptor f member.descriptor)).bind
  rintro type _ ⟨rfl, proper⟩
  have parameters := becomes_ofParameters (f := f) proper.parameters
  have static : (member.relabel f).isStatic = member.isStatic := rfl
  rw [static]
  apply Mirrors.ok
  apply FrameState.Becomes.ofSlots _ .nil
  apply List.rel_append _ parameters
  split
  · exact .nil
  · exact .cons (becomes_receiver own member) .nil

theorem Twins.agrees_analyze (twins : Twins f) {owner : String} (own : ClassRenaming.WellNamed owner)
    {code : Code} (names : code.WellNamed) (member : Member) (steps : Nat) :
    twins.Agrees (fun found other => found.1.Becomes f other.1 ∧ found.2.Becomes f other.2)
      (code.analyze ⟨twins.first, owner⟩ member steps)
      ((code.relabel f).analyze ⟨twins.second, f.name owner⟩ (member.relabel f) steps) := by
  have first := echoes_onEntry (f := f) own member
  unfold Code.analyze
  dsimp only
  generalize FrameState.onEntry owner member = outcome at first ⊢
  generalize FrameState.onEntry (f.name owner) (member.relabel f) = result at first ⊢
  cases first with
  | error _ => exact .fail _ _ _
  | ok both =>
    rw [ofCode_relabel]
    apply (twins.agrees_run own names.body (Flow.Becomes.start (Body.ofCode code) both) steps).bind
    intro flow other ended
    exact .pure ⟨both, ended⟩

end Bodies

section Frames

variable (f : Relabeling)

namespace FrameState

theorem entries_map (slots : List VerificationType) :
    entries (slots.map (VerificationType.relabel f)) =
      (entries slots).map (VerificationType.relabel f) := by
  induction slots using entries.induct with
  | case1 => rfl
  | case2 type => rfl
  | case3 type next rest wide ih =>
    have still : (type.relabel f).isWide = true := by rwa [VerificationType.isWide_relabel]
    rw [List.map_cons, List.map_cons, entries, entries, if_pos wide, if_pos still, ih, List.map_cons]
  | case4 type next rest narrow ih =>
    have still : ¬ (type.relabel f).isWide = true := by rwa [VerificationType.isWide_relabel]
    rw [List.map_cons, List.map_cons, entries, entries, if_neg narrow, if_neg still,
      ← List.map_cons, ih, List.map_cons]

theorem localEntries_relabel (state : FrameState) :
    (state.relabel f).localEntries = state.localEntries.map (VerificationType.relabel f) := by
  have top : ((· == VerificationType.top) ∘ VerificationType.relabel f) = (· == .top) := by
    funext type
    cases type <;> rfl
  rw [localEntries, relabel, entries_map, ← List.map_reverse, List.dropWhile_map, top,
    ← List.map_reverse, localEntries]

theorem stackEntries_relabel (state : FrameState) :
    (state.relabel f).stackEntries = state.stackEntries.map (VerificationType.relabel f) := by
  rw [stackEntries, relabel, ← List.map_reverse, entries_map, stackEntries]

end FrameState

theorem isPrefixOf_map {g : VerificationType → VerificationType} (injective : Function.Injective g)
    (front slots : List VerificationType) :
    (front.map g).isPrefixOf (slots.map g) = front.isPrefixOf slots := by
  rw [Bool.eq_iff_iff, List.isPrefixOf_iff_prefix, List.isPrefixOf_iff_prefix, List.prefix_map_iff]
  constructor
  · rintro ⟨part, leads, same⟩
    rwa [List.map_injective_iff.2 injective same]
  · intro leads
    exact ⟨front, leads, rfl⟩

theorem compress_map {g : VerificationType → VerificationType} (injective : Function.Injective g)
    (previous locals stack : List VerificationType) :
    FrameKind.compress (previous.map g) (locals.map g) (stack.map g) =
      (FrameKind.compress previous locals stack).map g := by
  have same : locals.map g = previous.map g ↔ locals = previous :=
    (List.map_injective_iff.2 injective).eq_iff
  match stack with
  | [] =>
    simp only [FrameKind.compress, List.map_nil, same, List.length_map, isPrefixOf_map injective,
      ← List.map_drop]
    split_ifs <;> rfl
  | [item] =>
    simp only [FrameKind.compress, List.map_cons, List.map_nil, same]
    split <;> rfl
  | first :: second :: rest => rfl

namespace Span

def relabel (span : Span) : Span where
  placed := span.placed.relabel f
  stop := span.stop
  state := span.state.map (FrameState.relabel f)

theorem isDead_relabel (span : Span) : (span.relabel f).isDead = span.isDead := Option.isNone_map

theorem ofCode_relabel (code : Code) (states : Array (Option FrameState)) :
    ofCode (code.relabel f) (states.map (Option.map (FrameState.relabel f))) =
      (ofCode code states).map (relabel f) := by
  have offsets : (code.relabel f).instructions.map Placed.offset =
      code.instructions.map Placed.offset := List.map_map
  have spans : (code.relabel f).spans = code.spans.map (Prod.map (Placed.relabel f) id) := by
    rw [Code.spans, Code.ends, offsets, Code.spans]
    exact List.zip_map_left
  rw [ofCode, spans, Array.toList_map, List.zip_map, ofCode, List.map_map, List.map_map]
  rfl

theorem deadRanges_relabel (pending : Option (Nat × Nat)) (spans : List Span) :
    deadRanges pending (spans.map (relabel f)) = deadRanges pending spans := by
  induction spans generalizing pending with
  | nil => rfl
  | cons span rest ih =>
    rw [List.map_cons, deadRanges, deadRanges, isDead_relabel, ih, ih]
    rfl

theorem branchTargets_relabel (spans : List Span) :
    branchTargets (spans.map (relabel f)) = branchTargets spans := by
  have targets (span : Span) : (span.relabel f).placed.instruction.branchTargets =
      span.placed.instruction.branchTargets := ClassRenaming.branchTargets_relabel f _
  rw [branchTargets, List.flatMap_map, branchTargets]
  simp only [isDead_relabel, targets]

theorem replaceDead_relabel (spans : List Span) :
    replaceDead (spans.map (relabel f)) = (replaceDead spans).map (Placed.relabel f) := by
  induction spans with
  | nil => rfl
  | cons span rest ih =>
    have next : ((rest.map (relabel f)).head?.map isDead).getD false =
        (rest.head?.map isDead).getD false := by
      cases rest with
      | nil => rfl
      | cons next rest => exact isDead_relabel f next
    have nops (offsets : List Nat) : (offsets.map (simpleAt Opcode.nop)).map (Placed.relabel f) =
        offsets.map (simpleAt Opcode.nop) := List.map_map
    rw [List.map_cons, replaceDead, replaceDead, isDead_relabel, ih, next]
    split
    · rw [List.map_append, nops, List.map_cons]
      rfl
    · rfl

theorem frame_relabel (previous : List VerificationType) (offset : Nat) (state : FrameState) :
    frame (previous.map (VerificationType.relabel f)) offset (state.relabel f) =
      (frame previous offset state).relabel f := by
  rw [frame, FrameState.localEntries_relabel, FrameState.stackEntries_relabel,
    compress_map (VerificationType.relabel_injective f), frame, Frame.relabel]

theorem deadState_relabel : deadState.relabel f = deadState := by
  have throwable : VerificationType.object throwableName = .object (f.name throwableName) := by
    rw [name_fixed (by decide)]
  rw [deadState, FrameState.relabel, List.map_cons, VerificationType.relabel, ← throwable]
  rfl

theorem frames_relabel (marked : Nat → Bool) (inDead : Bool) (previous : List VerificationType)
    (spans : List Span) :
    frames marked inDead (previous.map (VerificationType.relabel f)) (spans.map (relabel f)) =
      (frames marked inDead previous spans).map (Frame.relabel f) := by
  induction spans generalizing inDead previous with
  | nil => rfl
  | cons span rest ih =>
    obtain ⟨placed, stop, state⟩ := span
    have offset : (placed.relabel f).offset = placed.offset := rfl
    cases state with
    | some state =>
      simp only [List.map_cons, relabel, frames, Option.map_some, offset]
      split
      · rw [frame_relabel, FrameState.localEntries_relabel, ih, List.map_cons]
      · exact ih false previous
    | none =>
      have first := frame_relabel f previous placed.offset deadState
      rw [deadState_relabel] at first
      simp only [List.map_cons, relabel, frames, Option.map_none, offset]
      split
      · exact ih true previous
      · rw [first, List.map_cons, ← ih true [], List.map_nil]

end Span

namespace Handler

theorem without_relabel (range : Nat × Nat) (handler : Handler) :
    (handler.relabel f).without range = (handler.without range).map (Handler.relabel f) := by
  have pieces : [{ handler.relabel f with stop := min handler.stop range.1 },
      { handler.relabel f with start := max handler.start range.2 }] =
      [{ handler with stop := min handler.stop range.1 },
        { handler with start := max handler.start range.2 }].map (Handler.relabel f) := rfl
  unfold without
  exact (congrArg _ pieces).trans List.filter_map

theorem carve_relabel (dead : List (Nat × Nat)) (handler : Handler) :
    (handler.relabel f).carve dead = (handler.carve dead).map (Handler.relabel f) := by
  have each (pieces : List Handler) :
      dead.foldl (fun pieces range => pieces.flatMap (without range)) (pieces.map (relabel f)) =
        (dead.foldl (fun pieces range => pieces.flatMap (without range)) pieces).map (relabel f) := by
    induction dead generalizing pieces with
    | nil => rfl
    | cons range rest ih =>
      rw [List.foldl_cons, List.foldl_cons, ← ih, List.flatMap_map, List.map_flatMap]
      simp only [without_relabel]
  exact each [handler]

theorem firstPieces_relabel (dead : List (Nat × Nat)) (next : Nat) (handlers : List Handler) :
    firstPieces dead next (handlers.map (relabel f)) = firstPieces dead next handlers := by
  induction handlers generalizing next with
  | nil => rfl
  | cons handler rest ih =>
    rw [List.map_cons, firstPieces, firstPieces, carve_relabel, List.length_map, ih]

end Handler

theorem TypeAnnotation.moveCatch?_mapTexts (m : TextMap) (moved : List (Option Nat))
    (item : TypeAnnotation) :
    (item.mapTexts m).moveCatch? moved = (item.moveCatch? moved).map fun item => item.mapTexts m := by
  obtain ⟨targetType, target, path, value⟩ := item
  cases target with
  | «catch» index =>
    simp only [moveCatch?, mapTexts]
    split
    · split <;> rfl
    · rfl
  | _ => rfl

theorem moveCatch_relabel (moved : List (Option Nat)) (item : CodeAttribute) :
    (item.relabel f).moveCatch moved = (item.moveCatch moved).relabel f := by
  cases item with
  | typeAnnotations visibility annotations =>
    simp only [CodeAttribute.relabel, CodeAttribute.moveCatch, List.filterMap_map, List.map_filterMap,
      Function.comp_def, TypeAnnotation.moveCatch?_mapTexts]
  | _ => rfl

namespace Code

theorem carveHandlers_relabel (dead : List (Nat × Nat)) (code : Code) :
    (code.relabel f).carveHandlers dead = (code.carveHandlers dead).relabel f := by
  have pieces : (code.handlers.map (Handler.relabel f)).flatMap (Handler.carve dead) =
      (code.handlers.flatMap (Handler.carve dead)).map (Handler.relabel f) := by
    rw [List.flatMap_map, List.map_flatMap]
    simp only [Handler.carve_relabel]
  have moved : (code.attributes.map (CodeAttribute.relabel f)).map
        (CodeAttribute.moveCatch (Handler.firstPieces dead 0 code.handlers)) =
      (code.attributes.map
        (CodeAttribute.moveCatch (Handler.firstPieces dead 0 code.handlers))).map
          (CodeAttribute.relabel f) := by
    rw [List.map_map, List.map_map]
    simp only [Function.comp_def, moveCatch_relabel]
  unfold carveHandlers
  simp only [relabel, Handler.firstPieces_relabel, pieces, moved]
  split <;> rfl

theorem replaceIn_relabel (frames : List Frame) (attributes : List CodeAttribute) :
    setStackMap.replaceIn (frames.map (Frame.relabel f)) (attributes.map (CodeAttribute.relabel f)) =
      (setStackMap.replaceIn frames attributes).map (CodeAttribute.relabel f) := by
  have table : setStackMap.table (frames.map (Frame.relabel f)) =
      (setStackMap.table frames).map (CodeAttribute.relabel f) := by
    cases frames <;> rfl
  have put (isTable : CodeAttribute → Bool) (same : ∀ item, isTable (item.relabel f) = isTable item) :
      (if (attributes.map (CodeAttribute.relabel f)).any isTable then
          (attributes.map (CodeAttribute.relabel f)).takeWhile (!isTable ·) ++
            (setStackMap.table frames).map (CodeAttribute.relabel f) ++
              ((attributes.map (CodeAttribute.relabel f)).dropWhile (!isTable ·)).drop 1
        else (setStackMap.table frames).map (CodeAttribute.relabel f) ++
          attributes.map (CodeAttribute.relabel f)) =
        (if attributes.any isTable then
          attributes.takeWhile (!isTable ·) ++ setStackMap.table frames ++
            (attributes.dropWhile (!isTable ·)).drop 1
        else setStackMap.table frames ++ attributes).map (CodeAttribute.relabel f) := by
    simp only [List.any_map, List.takeWhile_map, List.dropWhile_map, Function.comp_def, same,
      ← List.map_drop, ← List.map_append]
    split <;> rfl
  unfold setStackMap.replaceIn
  rw [table]
  apply put
  intro item
  cases item <;> rfl

theorem setStackMap_relabel (frames : List Frame) (code : Code) :
    (code.relabel f).setStackMap (frames.map (Frame.relabel f)) =
      (code.setStackMap frames).relabel f := by
  rw [setStackMap, relabel, replaceIn_relabel]
  rfl

theorem withFlow_relabel (major : UInt16) (entry : FrameState) (flow : Flow) (code : Code) :
    (code.relabel f).withFlow major (entry.relabel f) (flow.relabel f) =
      Code.relabel f <$> code.withFlow major entry flow := by
  have spans : Span.ofCode (code.relabel f) (flow.relabel f).states =
      (Span.ofCode code flow.states).map (Span.relabel f) := Span.ofCode_relabel f code flow.states
  have targets (handlers : List Handler) :
      (handlers.map (Handler.relabel f)).map Handler.target = handlers.map Handler.target :=
    List.map_map
  have length : (code.relabel f).length = code.length := rfl
  have handlers (code : Code) : (code.relabel f).handlers = code.handlers.map (Handler.relabel f) :=
    rfl
  have put (frames : List Frame) (carved : Code) (instructions : List Placed)
      (maxStack maxLocals : UInt16) :
      setStackMap (if stackMapVersion ≤ major then frames.map (Frame.relabel f) else [])
          { carved.relabel f with
            instructions := instructions.map (Placed.relabel f), maxStack, maxLocals } =
        Code.relabel f (setStackMap (if stackMapVersion ≤ major then frames else [])
          { carved with instructions, maxStack, maxLocals }) := by
    have table : (if stackMapVersion ≤ major then frames.map (Frame.relabel f) else []) =
        (if stackMapVersion ≤ major then frames else []).map (Frame.relabel f) := by
      split <;> rfl
    rw [table, ← setStackMap_relabel]
    rfl
  have maxStack : (flow.relabel f).maxStack = flow.maxStack := rfl
  have maxLocals : (flow.relabel f).maxLocals = flow.maxLocals := rfl
  unfold withFlow
  dsimp only
  rw [spans, Span.deadRanges_relabel, Span.branchTargets_relabel, carveHandlers_relabel, handlers,
    targets, length, FrameState.localEntries_relabel, Span.frames_relabel, Span.replaceDead_relabel,
    maxStack, maxLocals]
  generalize (if (Span.deadRanges none (Span.ofCode code flow.states)).isEmpty then flow.maxStack
    else max flow.maxStack 1) = height
  split
  · rfl
  · split
    · rfl
    · exact congrArg Except.ok (put _ _ _ _ _)

end Code

end Frames

/-- Frames are recomputed for a body with new names, in a hierarchy with new names, as they were for
the body before, with new names: there is the same result up to names, or a failure at the same
offset. Names that stand in the descriptors of arrays, as those of elements and as those that
elements have in common, must be such that they can. -/
theorem Code.recomputeWithin_relabel (f : Relabeling) {first second : Hierarchy}
    {cache after : MetadataCache}
    (entries : ∀ name, second.view after (f.name name) = (first.view cache name).relabel f)
    (declared : ∀ name, (first.view cache name).Named ProperCore) {owner : String}
    (own : ClassRenaming.WellNamed owner) {code : Code} (names : code.WellNamed) (major : UInt16)
    (member : Member) (steps : Nat) :
    Mirrors SameOffset (fun result other => other = result.relabel f)
      (code.recomputeWithin ⟨first, owner⟩ major member steps cache).1
      ((code.relabel f).recomputeWithin ⟨second, f.name owner⟩ major (member.relabel f) steps
        after).1 := by
  let twins : Twins f := ⟨first, second, first.view cache, second.view after, entries, declared⟩
  have agrees : twins.Agrees (fun result other => other = result.relabel f)
      (code.recomputeWithin ⟨first, owner⟩ major member steps)
      ((code.relabel f).recomputeWithin ⟨second, f.name owner⟩ major (member.relabel f) steps) := by
    apply (twins.agrees_analyze own names member steps).bind
    rintro ⟨entry, flow⟩ ⟨_, _⟩ ⟨⟨rfl, -⟩, ⟨rfl, -⟩⟩
    have put := withFlow_relabel f major entry flow code
    dsimp only
    rw [put]
    cases code.withFlow major entry flow with
    | error fault => exact .fail _ _ _
    | ok result => exact .pure rfl
  exact (agrees cache after rfl rfl).1

/-! Bodies that take an element out of an array. -/

/-- What becomes of the frames of a body in a class `app/Main`, with nothing else known than some
entries, when names are escaped: the same with escaped names. -/
def Code.EscapedAlike (code : Code) (member : Member) (cache : MetadataCache) : Prop :=
  Mirrors SameOffset (fun result other => other = result.relabel .escaping)
    (code.recompute ⟨⟨.empty, none⟩, "app/Main"⟩ 52 member cache).1
    ((code.relabel .escaping).recompute ⟨⟨.empty, none⟩, Relabeling.escaping.name "app/Main"⟩ 52
      (member.relabel .escaping) (cache.relabel .escaping)).1

def firstOfNew (element : String) : Code where
  maxStack := 2
  maxLocals := 0
  instructions := [⟨0, .simple 0x04⟩, ⟨1, .type Opcode.anewarray element⟩, ⟨4, .simple 0x03⟩,
    ⟨5, .simple 0x32⟩, ⟨6, .simple 0x57⟩, ⟨7, .simple Opcode.voidReturn⟩]
  length := 8
  handlers := []
  attributes := []

def firstOfEither : Code where
  maxStack := 2
  maxLocals := 3
  instructions := [⟨0, .simple 0x2A⟩, ⟨1, .simple 0x1C⟩, ⟨2, .jump 0x99 7⟩, ⟨5, .simple 0x57⟩,
    ⟨6, .simple 0x2B⟩, ⟨7, .simple 0x03⟩, ⟨8, .simple 0x32⟩, ⟨9, .simple 0x57⟩,
    ⟨10, .simple Opcode.voidReturn⟩]
  length := 11
  handlers := []
  attributes := []

def choosing : Member := ⟨0x0008, "choose", "([Lapp/A;[Lapp/B;I)V", []⟩

def siblings (base : String) : MetadataCache :=
  ⟨[⟨"app/A", some base, [], false⟩, ⟨"app/B", some base, [], false⟩]⟩

/-- Two arrays of classes have one of a superclass in common, under any names. -/
theorem firstOfEither_escapedAlike : firstOfEither.EscapedAlike choosing (siblings "app/Base") := by
  have base : ProperCore "app/Base" := (properCore_plain (by decide)).2 (by decide)
  have declared (name : String) : ((Hierarchy.mk .empty none).view (siblings "app/Base") name).Named
      ProperCore := by
    unfold Hierarchy.view
    cases found : (siblings "app/Base").find? name with
    | some entry =>
      have listed := List.mem_of_find?_eq_some found
      simp only [siblings, List.mem_cons, List.not_mem_nil, or_false] at listed
      rcases listed with rfl | rfl <;> exact ⟨by rintro _ ⟨⟩; exact base, nofun⟩
    | none => exact named_fallback name
  have names : firstOfEither.WellNamed := by
    constructor
    · intro placed member
      simp only [firstOfEither, List.mem_cons, List.not_mem_nil, or_false] at member
      rcases member with rfl | rfl | rfl | rfl | rfl | rfl | rfl | rfl | rfl <;> trivial
    · nofun
  exact Code.recomputeWithin_relabel .escaping (view_relabel .escaping _) declared (.inl (by decide))
    names 52 choosing Code.stepLimit

/-- A class whose name has a semicolon cannot be told in the descriptor of an array, while its new
name can: whether an element comes out of the array depends on the name. -/
theorem not_escapedAlike : IsPlain "a;b" ∧
    ¬ (firstOfNew "a;b").EscapedAlike ⟨0x0008, "run", "()V", []⟩ .empty ∧
      ¬ firstOfEither.EscapedAlike choosing (siblings "a;b") := by
  have apart {α β : Type} {first : Except FrameError α} {second : Except FrameError β}
      {related : α → β → Prop} (failed : first.toOption.isSome = false)
      (done : second.toOption.isSome = true) : ¬ Mirrors SameOffset related first second := by
    intro both
    cases both with
    | ok _ => cases failed
    | error _ => cases done
  refine ⟨by decide, apart ?_ ?_, apart ?_ ?_⟩
  all_goals decide +kernel

end ClassRenaming
