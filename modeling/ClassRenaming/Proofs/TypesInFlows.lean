import ClassRenaming.Proofs.PostFixpoint
import ClassRenaming.Proofs.TypesInStates

/-!
Types that an analysis finds. A property that every visit keeps for the state behind its instruction,
and that merging keeps, holds of the types in all states of a run.
-/

namespace ClassRenaming

namespace Flow

variable {good : VerificationType → Prop}

def Each (good : VerificationType → Prop) (flow : Flow) : Prop :=
  ∀ position state, flow.stateAt? position = some state → state.Each good

namespace Each

variable {flow : Flow}

theorem of_states {other : Flow} (each : flow.Each good) (same : other.states = flow.states) :
    other.Each good := by
  intro position state at_
  rw [stateAt?, same] at at_
  exact each position state at_

theorem mark (each : flow.Each good) (position : Nat) : (flow.mark position).Each good :=
  each.of_states (states_mark flow position)

theorem see (each : flow.Each good) (stack locals : Nat) : (flow.see stack locals).Each good :=
  each.of_states rfl

theorem record (each : flow.Each good) {state : FrameState} (here : state.Each good)
    (position : Nat) : (flow.record position state).Each good := by
  intro other found at_
  rcases stateAt?_of_record at_ with ⟨-, rfl⟩ | old
  · exact here
  · exact each other found old

theorem start (body : Body) {entry : FrameState} (here : entry.Each good) :
    (Flow.start body entry).Each good := by
  intro position state at_
  rwa [(pending_of_stateAt?_start at_).1]

end Each

section Runs

variable {context : FrameContext} {table : String → TypeMetadata} {code : Code}

variable (top : good .top)
  (merges : ∀ a b, good a → good b →
    Ensures context.hierarchy table (context.hierarchy.mergeTypes a b) good)
include top merges

theorem gives_arrive_each {offset position : Nat} {incoming : FrameState}
    (here : incoming.Each good) {flow : Flow} (each : flow.Each good) :
    Gives context.hierarchy table (fun _ => True)
      (flow.arrive context.hierarchy offset incoming position) (Each good) := by
  refine .arrive (fun _ => (each.record here position).mark position) (fun _ _ => trivial)
    fun recorded at_ _ => ?_
  have old := each position recorded at_
  refine (ensures_mergeStates_each top merges old here).mono fun merged both => ?_
  split
  · exact each.record both position
  · exact (each.record both position).mark position

theorem gives_catchIn_each {offset : Nat} {entry exit : FrameState} (before : entry.Each good)
    (after : exit.Each good) {handler : Handler}
    (caught : good (.object (handler.catchType.getD throwableName))) {body : Body} {flow : Flow}
    (each : flow.Each good) :
    Gives context.hierarchy table (fun _ => True)
      (catchIn context.hierarchy body offset entry exit flow handler) (Each good) := by
  have brought {state : FrameState} (here : state.Each good) : (Flow.caught handler state).Each good :=
    ⟨here.locals, fun type member => by rwa [List.mem_singleton.1 member]⟩
  refine .catchIn (fun _ => each) (fun _ => trivial) fun target _ _ => ?_
  refine .bind (gives_arrive_each top merges (brought before) (each.see 1 0)) ?_
  exact fun middle still => gives_arrive_each top merges (brought after) still

theorem gives_visit_each {position : Nat} {flow : Flow} (each : flow.Each good)
    (exits : ∀ (placed : Placed) (entry exit : FrameState), code.instructions[position]? = some placed →
      entry.Each good → entry.execute context.owner (Body.ofCode code).made? placed = .ok exit →
        exit.Each good)
    (caught : ∀ handler ∈ code.handlers, good (.object (handler.catchType.getD throwableName))) :
    Gives context.hierarchy table (fun _ => True)
      (visit context (Body.ofCode code) position flow) (Each good) := by
  refine .visit (fun _ => each) (fun _ _ _ _ _ _ => trivial) fun placed entry exit at_ known done => ?_
  have here : code.instructions[position]? = some placed := by
    simpa [Body.ofCode] using at_
  have before := each position entry known
  have after := exits placed entry exit here before done
  refine .bind ((gives_successors position placed).weaken fun _ _ => trivial) fun targets _ => ?_
  refine .bind (.foldlM (fun target _ flow still =>
    gives_arrive_each top merges after still) (each.see _ _)) fun middle told => ?_
  exact .foldlM (fun handler listed flow still =>
    gives_catchIn_each top merges before after (caught handler listed) still) told

theorem gives_run_each
    (exits : ∀ (position : Nat) (placed : Placed) (entry exit : FrameState),
      code.instructions[position]? = some placed → entry.Each good →
        entry.execute context.owner (Body.ofCode code).made? placed = .ok exit → exit.Each good)
    (caught : ∀ handler ∈ code.handlers, good (.object (handler.catchType.getD throwableName)))
    (steps : Nat) {flow : Flow} (each : flow.Each good) :
    Gives context.hierarchy table (fun _ => True) (run context (Body.ofCode code) steps flow)
      (Each good) := by
  refine .mono (.run trivial (fun before position rest _ held => ?_) steps each) fun after kept => kept.1
  have taken : ({ before with pending := rest } : Flow).Each good := held.of_states rfl
  exact gives_visit_each top merges taken (exits position) caught

end Runs

end Flow

end ClassRenaming
