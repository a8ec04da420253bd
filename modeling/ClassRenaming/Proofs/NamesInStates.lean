import ClassRenaming.Proofs.NamesInTypes
import ClassRenaming.Proofs.ReachedStates
import ClassRenaming.Proofs.TypesInFlows

/-!
Names in the states that an analysis finds: each comes from the body, from the class around it or
from what the hierarchy declares. There is a place for the state of every instruction.
-/

namespace ClassRenaming

theorem Body.exists_of_made? {body : Body} {offset : Nat} {name : String}
    (made : body.made? offset = some name) :
    ∃ placed ∈ body.instructions, placed.instruction = .type Opcode.new name := by
  unfold made? at made
  obtain ⟨position, -, made⟩ := Option.bind_eq_some_iff.1 made
  obtain ⟨placed, at_, made⟩ := Option.bind_eq_some_iff.1 made
  have member := Array.mem_of_getElem? at_
  split at made
  · next opcode operand shape =>
    split at made
    · next new =>
      cases made
      exact ⟨placed, member, new ▸ shape⟩
    · cases made
  · cases made

namespace Flow

variable {good : String → Prop}

structure Named (good : String → Prop) (size : Nat) (flow : Flow) : Prop where
  size : flow.states.size = size
  states : ∀ position state, flow.stateAt? position = some state → state.Named good

theorem named_iff {size : Nat} {flow : Flow} :
    flow.Named good size ↔ flow.states.size = size ∧ flow.Each (VerificationType.Named good) := by
  constructor
  · intro named
    exact ⟨named.size, fun position state at_ => (named.states position state at_).each⟩
  · intro both
    exact ⟨both.1, fun position state at_ => FrameState.named_iff.2 (both.2 position state at_)⟩

namespace Named

variable {size : Nat} {flow : Flow}

theorem mark (named : flow.Named good size) (position : Nat) :
    (flow.mark position).Named good size := by
  obtain ⟨room, each⟩ := named_iff.1 named
  exact named_iff.2 ⟨by rw [states_mark, room], each.mark position⟩

theorem record (named : flow.Named good size) {state : FrameState} (here : state.Named good)
    (position : Nat) : (flow.record position state).Named good size := by
  obtain ⟨room, each⟩ := named_iff.1 named
  exact named_iff.2 ⟨by rw [Flow.record, Array.size_setIfInBounds, room], each.record here.each position⟩

theorem start (body : Body) {entry : FrameState} (here : entry.Named good) :
    (Flow.start body entry).Named good body.instructions.size :=
  named_iff.2 ⟨by simp [Flow.start], .start body here.each⟩

end Named

section Runs

variable {context : FrameContext} {table : String → TypeMetadata} {code : Code}

structure NamedIn (good : String → Prop) (context : FrameContext) (code : Code) : Prop where
  owner : good context.owner
  sites : SitesNamed good code.sites

theorem NamedIn.made? (inside : NamedIn good context code) (offset : Nat) (name : String)
    (made : (Body.ofCode code).made? offset = some name) : good name := by
  obtain ⟨placed, listed, shape⟩ := Body.exists_of_made? made
  have member : placed ∈ code.instructions := by
    simpa [Body.ofCode] using listed
  apply inside.sites name
  refine List.mem_append_left _ (List.mem_append_left _ (List.mem_flatMap.2 ⟨placed, member, ?_⟩))
  rw [shape]
  exact List.mem_cons_self

theorem NamedIn.operand (inside : NamedIn good context code) {placed : Placed}
    (member : placed ∈ code.instructions) : SitesNamed good placed.instruction.sites := by
  refine inside.sites.mono fun site listed => ?_
  exact List.mem_append_left _ (List.mem_append_left _ (List.mem_flatMap.2 ⟨placed, member, listed⟩))

theorem NamedIn.caught (inside : NamedIn good context code) (closed : ClosedNames good)
    {handler : Handler} (member : handler ∈ code.handlers) :
    good (handler.catchType.getD throwableName) := by
  cases known : handler.catchType with
  | none => exact closed.fixed _ (by simp [fixedNames, throwableName])
  | some name =>
    refine inside.sites name (List.mem_append_left _ (List.mem_append_right _ ?_))
    refine List.mem_flatMap.2 ⟨handler, member, ?_⟩
    rw [known]
    exact List.mem_cons_self

theorem gives_run_named (closed : ClosedNames good) (entries : ∀ name, (table name).Named good)
    (inside : NamedIn good context code) (steps : Nat) {flow : Flow}
    (each : flow.Each (VerificationType.Named good)) :
    Gives context.hierarchy table (fun _ => True) (run context (Body.ofCode code) steps flow)
      (Each (VerificationType.Named good)) := by
  refine gives_run_each trivial ?merges ?exits ?caught steps each
  case merges =>
    intro a b left right
    exact ensures_mergeTypes_named closed entries left right
  case exits =>
    intro position placed entry exit here before done
    have operand := inside.operand (List.mem_of_getElem? here)
    have named := FrameState.named_iff.2 before
    exact (named.execute closed inside.owner inside.made? operand done).each
  case caught =>
    intro handler member
    exact inside.caught closed member

end Runs

end Flow

theorem gives_analyze_named {good : String → Prop} {context : FrameContext}
    {table : String → TypeMetadata} {code : Code} (closed : ClosedNames good)
    (entries : ∀ name, (table name).Named good) (inside : Flow.NamedIn good context code)
    {member : Member} (descriptor : good member.descriptor) (steps : Nat) :
    Flow.Gives context.hierarchy table (fun _ => True) (code.analyze context member steps)
      fun (entry, flow) => entry.Named good ∧ flow.Named good code.instructions.length := by
  unfold Code.analyze
  cases known : FrameState.onEntry context.owner member with
  | error fault => exact .fail trivial
  | ok entry =>
    have first := FrameState.named_onEntry closed inside.owner descriptor known
    have start := Flow.Each.start (Body.ofCode code) first.each
    have named := Flow.gives_run_named closed entries inside steps start
    refine .bind (named.and (Flow.traced_run steps (Flow.traced_start code entry))) ?_
    intro flow both
    exact .pure ⟨first, Flow.named_iff.2 ⟨both.2.size, both.1⟩⟩

end ClassRenaming
