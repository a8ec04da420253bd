import ClassRenaming.Proofs.AnalysisSteps
import ClassRenaming.Proofs.PlacedRuns
import ClassRenaming.Proofs.ReadClasses

/-!
Values that are still to be constructed, at the instruction that makes them. As long as that
instruction has no state there is no such value anywhere, so the first state that comes there lacks
it; and what the recorded state lacks no merge brings in.
-/

namespace ClassRenaming

open VerificationType

namespace FrameState

def Lacks (offset : Nat) : FrameState → Prop := Each (· ≠ .uninitialized offset)

namespace Lacks

variable {offset : Nat}

theorem ne_of_constructed (type : VerificationType) (constructed : type.Constructed) :
    type ≠ .uninitialized offset := by
  rintro rfl
  exact constructed

theorem onEntry {owner : String} {member : Member} {entry : FrameState}
    (done : FrameState.onEntry owner member = .ok entry) : entry.Lacks offset :=
  Each.onEntry_constructed ne_of_constructed nofun done

theorem execute {state after : FrameState} (lacks : state.Lacks offset) {owner : String}
    {made : Nat → Option String} {placed : Placed} (elsewhere : placed.offset ≠ offset)
    (done : state.execute owner made placed = .ok after) : after.Lacks offset :=
  Each.execute_constructed ne_of_constructed lacks
    (fun _ _ same => elsewhere (uninitialized.inj same)) done

theorem caught {state : FrameState} (lacks : state.Lacks offset) (handler : Handler) :
    (Flow.caught handler state).Lacks offset := by
  refine ⟨lacks.locals, fun type member => ?_⟩
  rw [List.mem_singleton.1 member]
  exact ne_of_constructed _ trivial

theorem ensures_mergeSlots {hierarchy : Hierarchy} {table : String → TypeMetadata}
    {slots : List VerificationType} (each : ∀ type ∈ slots, type ≠ .uninitialized offset)
    (others : List VerificationType) :
    Ensures hierarchy table (hierarchy.mergeSlots slots others) fun merged =>
      ∀ type ∈ merged, type ≠ .uninitialized offset := by
  have pair (a b : VerificationType) : Ensures hierarchy table (hierarchy.mergeTypes a b)
      fun merged => merged.Constructed ∨ a = merged :=
    ensures_mergeTypes_constructed (fun _ => .inl) a b (.inr rfl)
  refine .mono (ensures_slotAt_mergeSlots (.inr rfl) pair slots others) ?_
  rintro merged ⟨-, entries⟩ type member
  obtain ⟨index, inside, rfl⟩ := List.mem_iff_getElem.1 member
  have here : slotAt merged index = merged[index] := by
    rw [slotAt, List.getElem?_eq_getElem inside, Option.getD_some]
  rcases entries index with constructed | same
  · exact ne_of_constructed _ (here ▸ constructed)
  · rw [← here, ← same]
    exact Each.getD (ne_of_constructed .top trivial) each index

theorem mergeStates {recorded : FrameState} (lacks : recorded.Lacks offset) (incoming : FrameState)
    (hierarchy : Hierarchy) (cache : MetadataCache) :
    (hierarchy.mergeStates recorded incoming cache).1.Lacks offset := by
  have sides : Ensures hierarchy (hierarchy.view cache) (hierarchy.mergeStates recorded incoming)
      (Lacks offset) := by
    refine (ensures_mergeSlots lacks.locals incoming.locals).bind fun locals here => ?_
    exact (ensures_mergeSlots lacks.stack incoming.stack).bind fun stack there => .pure ⟨here, there⟩
  exact (sides cache rfl).1

end Lacks

end FrameState

namespace Flow

variable {context : FrameContext} {code : Code} {before after first last : Point}
  {position : Nat} {placed : Placed}

/-- The state of an instruction lacks the value that is made there; before there is one, all states
do. -/
structure Point.Fresh (position offset : Nat) (point : Point) : Prop where
  recorded : ∀ state, point.flow.stateAt? position = some state → state.Lacks offset
  unreached : point.flow.stateAt? position = none → ∀ state, point.Holds state → state.Lacks offset

theorem fresh_start {body : Body} {entry : FrameState} (position : Nat) {offset : Nat}
    (lacks : entry.Lacks offset) (cache : MetadataCache) :
    Point.Fresh position offset ⟨.start body entry, cache, 0, []⟩ := by
  have first (other : Nat) (state : FrameState)
      (at_ : (start body entry).stateAt? other = some state) : state.Lacks offset := by
    rwa [(pending_of_stateAt?_start at_).1]
  refine ⟨first position, ?_⟩
  rintro - state (⟨other, at_⟩ | ⟨errand, listed, -⟩)
  · exact first other state at_
  · cases listed

theorem Step.fresh (tiles : Tiles 0 code.instructions code.length)
    (here : code.instructions[position]? = some placed)
    (step : Step context (Body.ofCode code) before after)
    (fresh : before.Fresh position placed.offset) : after.Fresh position placed.offset := by
  cases at_ : before.flow.stateAt? position with
  | some old =>
    have lacks := fresh.recorded old at_
    have now : ∃ state, after.flow.stateAt? position = some state ∧ state.Lacks placed.offset := by
      rcases step.kept at_ with same | ⟨incoming, cache, merged⟩
      · exact ⟨old, same, lacks⟩
      · exact ⟨_, merged, lacks.mergeStates incoming _ cache⟩
    obtain ⟨state, known, lacks⟩ := now
    refine ⟨fun other there => ?_, fun fresh => ?_⟩
    · rw [known] at there
      cases there
      exact lacks
    · rw [known] at fresh
      cases fresh
  | none =>
    have old := fresh.unreached at_
    have all (state : FrameState) (held : after.Holds state) : state.Lacks placed.offset := by
      rcases step.holds held with kept | ⟨other, source, entry, there, known, done⟩ |
        ⟨recorded, incoming, cache, left, -, rfl⟩ | ⟨handler, other, kept, rfl⟩
      · exact old state kept
      · rw [Code.getElem?_ofCode] at there
        refine (old entry (.inl ⟨other, known⟩)).execute (fun same => ?_) done
        rw [tiles.position_unique there here same, at_] at known
        cases known
      · exact (old recorded left).mergeStates incoming _ cache
      · exact (old other kept).caught handler
    exact ⟨fun state there => all state (.inl ⟨position, there⟩), fun _ => all⟩

theorem Steps.fresh (tiles : Tiles 0 code.instructions code.length)
    (here : code.instructions[position]? = some placed)
    (steps : Steps context (Body.ofCode code) first last)
    (fresh : first.Fresh position placed.offset) : last.Fresh position placed.offset := by
  induction steps with
  | refl => exact fresh
  | tail _ step ih => exact step.fresh tiles here ih

end Flow

/-- No instruction of a body that was read, so no `new`, ever has a state with the value that is made
there. -/
theorem Code.Passes.not_mem_uninitialized {pool : ConstantPool} {info : Bytes} {code : Code}
    (read : Code.read pool info = .ok code) {context : FrameContext} {member : Member}
    {cache : MetadataCache} {point : Flow.Point} (passes : code.Passes context member cache point)
    {position : Nat} {placed : Placed} (here : code.instructions[position]? = some placed)
    {state : FrameState} (at_ : point.flow.stateAt? position = some state) :
    .uninitialized placed.offset ∉ state.locals ∧ .uninitialized placed.offset ∉ state.stack := by
  have proper : code.Proper pool.depth := (Code.gives_readBody pool).all read
  obtain ⟨entry, onEntry, steps⟩ := passes
  have fresh := steps.fresh proper.tiles here (Flow.fresh_start position (.onEntry onEntry) cache)
  have lacks := fresh.recorded state at_
  exact ⟨fun member => lacks.locals _ member rfl, fun member => lacks.stack _ member rfl⟩

/-- A value is made in a loop, and stored in a local variable that the next one has still. -/
def makingBytes : Bytes :=
  [0, 1, 0, 1, 0, 0, 0, 7, 0xBB, 0, 2, 0x4B, 0xA7, 0xFF, 0xFC, 0, 0, 0, 0]

theorem makingBytes_fresh : ∃ code flow after offset state name,
    Code.read ⟨#[.unusable, .utf8 "A" [0x41] true, .classRef 1], #[]⟩ makingBytes = .ok code ∧
    code.instructions[0]? = some ⟨0, .type Opcode.new name⟩ ∧
    code.Passes ⟨⟨.empty, none⟩, "Main"⟩ ⟨0x0008, "run", "()V", []⟩ .empty
      ⟨flow, after, offset, []⟩ ∧
    flow.stateAt? 0 = some state ∧ state.locals = [.top] ∧
    .uninitialized 0 ∉ state.locals ∧ .uninitialized 0 ∉ state.stack := by
  have read : ∃ code, Code.read ⟨#[.unusable, .utf8 "A" [0x41] true, .classRef 1], #[]⟩ makingBytes = .ok code ∧
      code.instructions[0]? = some ⟨0, .type Opcode.new "A"⟩ ∧
      ∃ flow after, code.analyze ⟨⟨.empty, none⟩, "Main"⟩ ⟨0x0008, "run", "()V", []⟩ 20 .empty =
        (.ok (⟨[], []⟩, flow), after) ∧ flow.stateAt? 0 = some ⟨[.top], []⟩ :=
    ⟨_, rfl, rfl, _, _, rfl, rfl⟩
  obtain ⟨code, read, here, flow, after, ended, at_⟩ := read
  obtain ⟨offset, passes⟩ := Code.passes_of_analyze ended
  exact ⟨code, flow, after, offset, _, "A", read, here, passes, at_, rfl, passes.not_mem_uninitialized read here at_⟩

end ClassRenaming
