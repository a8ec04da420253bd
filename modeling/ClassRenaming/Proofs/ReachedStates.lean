import ClassRenaming.Proofs.PostFixpoint
import ClassRenaming.Proofs.StoredCode

/-!
The instructions that get a state are those that control can reach. A visit gives states only to what
its instruction leads to, so whatever has a state was reached; and at the end whatever an instruction
with a state leads to has received one.
-/

namespace ClassRenaming

namespace Code

/-- Control may go on from the instruction at one position to the one at another. -/
inductive Leads (code : Code) (position next : Nat) : Prop where
  | jump {placed target : Placed} (here : code.instructions[position]? = some placed)
      (there : code.instructions[next]? = some target)
      (jumps : target.offset ∈ placed.instruction.branchTargets)
  | fall {placed target : Placed} (here : code.instructions[position]? = some placed)
      (there : code.instructions[next]? = some target)
      (goes : ¬ placed.instruction.endsBlock) (behind : next = position + 1)
  | catch {placed target : Placed} {handler : Handler}
      (here : code.instructions[position]? = some placed)
      (there : code.instructions[next]? = some target) (member : handler ∈ code.handlers)
      (start : handler.start ≤ placed.offset) (stop : placed.offset < handler.stop)
      (catches : handler.target = target.offset)

def Reached (code : Code) : Nat → Prop := Relation.ReflTransGen code.Leads 0

theorem getElem?_ofCode (code : Code) (position : Nat) :
    (Body.ofCode code).instructions[position]? = code.instructions[position]? := by
  simp [Body.ofCode]

theorem getElem?_of_position? {code : Code} {offset position : Nat}
    (found : (Body.ofCode code).position? offset = some position) :
    ∃ placed, code.instructions[position]? = some placed ∧ placed.offset = offset := by
  obtain ⟨placed, at_, starts⟩ := Body.exists_of_position? found
  rw [getElem?_ofCode] at at_
  exact ⟨placed, at_, starts⟩

end Code

/-! States come from where an instruction leads. -/

namespace Flow

structure Spreads (found : Nat → Prop) (before after : Flow) : Prop where
  size : after.states.size = before.states.size
  kept : ∀ position, before.stateAt? position ≠ none → after.stateAt? position ≠ none
  led : ∀ position, after.stateAt? position ≠ none → before.stateAt? position ≠ none ∨ found position

namespace Spreads

variable {found : Nat → Prop} {a b c : Flow}

theorem of_states (same : b.states = a.states) : Spreads found a b := by
  have entries (position : Nat) : b.stateAt? position = a.stateAt? position := by
    rw [stateAt?, same, stateAt?]
  refine ⟨by rw [same], fun position known => ?_, fun position known => .inl ?_⟩
  · rwa [entries]
  · rwa [← entries]

theorem refl (found : Nat → Prop) (flow : Flow) : Spreads found flow flow := of_states rfl

theorem see (found : Nat → Prop) (flow : Flow) (stack locals : Nat) :
    Spreads found flow (flow.see stack locals) := of_states rfl

theorem trans (first : Spreads found a b) (second : Spreads found b c) : Spreads found a c where
  size := second.size.trans first.size
  kept position known := second.kept position (first.kept position known)
  led position known := (second.led position known).elim (first.led position) .inr

theorem record {position : Nat} {state : FrameState} (here : found position)
    (states : b.states = (a.record position state).states) : Spreads found a b := by
  have entries (other : Nat) (different : other ≠ position) :
      b.stateAt? other = a.stateAt? other := by
    rw [stateAt?, states, Flow.record, Array.getElem?_setIfInBounds_ne (Ne.symm different), stateAt?]
  have kept : a.stateAt? position ≠ none → b.stateAt? position ≠ none := by
    intro known
    have inside : position < a.states.size := by
      by_contra outside
      rw [stateAt?, Array.getElem?_eq_none (by omega)] at known
      exact known rfl
    rw [stateAt?, states, Flow.record, Array.getElem?_setIfInBounds_self_of_lt inside]
    simp
  constructor
  · rw [states]
    exact Array.size_setIfInBounds
  · intro other known
    by_cases same : other = position
    · subst same
      exact kept known
    · rwa [entries other same]
  · intro other known
    by_cases same : other = position
    · subst same
      exact .inr here
    · rw [entries other same] at known
      exact .inl known

end Spreads

section Steps

variable {hierarchy : Hierarchy} {context : FrameContext} {table : String → TypeMetadata}
  {found : Nat → Prop} {code : Code} {flow : Flow}

theorem spreads_arrive {position : Nat} (here : found position) (offset : Nat)
    (incoming : FrameState) (flow : Flow) :
    Gives hierarchy table (fun _ => True) (flow.arrive hierarchy offset incoming position)
      (Spreads found flow) := by
  refine .arrive (fun _ => .record here (states_mark _ _)) (fun _ _ => trivial)
    fun recorded _ height => (ensures_mergeStates height).mono fun merged _ => ?_
  split
  · exact .record here rfl
  · exact .record here (states_mark _ _)

theorem spreads_catchIn {position : Nat} {placed : Placed} {entry exit : FrameState}
    {handler : Handler} (here : code.instructions[position]? = some placed)
    (member : handler ∈ code.handlers) :
    Gives hierarchy table (fun _ => True)
      (catchIn hierarchy (Body.ofCode code) placed.offset entry exit flow handler)
      (Spreads (code.Leads position) flow) := by
  refine .catchIn (fun _ => .refl _ flow) (fun _ => trivial) fun target covered known => ?_
  obtain ⟨other, there, catches⟩ := Code.getElem?_of_position? known
  have leads : code.Leads position target :=
    .catch here there member covered.1 covered.2 catches.symm
  refine .bind (spreads_arrive leads _ _ _) fun middle first => ?_
  refine (spreads_arrive leads _ _ _).mono fun after second => ?_
  exact (Spreads.see _ flow 1 0).trans (first.trans second)

theorem spreads_visit (position : Nat) (reached : flow.stateAt? position ≠ none → code.Reached position) :
    Gives context.hierarchy table (fun _ => True) (visit context (Body.ofCode code) position flow)
      (Spreads code.Reached flow) := by
  refine .visit (fun _ => .refl _ flow) (fun _ _ _ _ _ _ => trivial)
    fun placed entry exit here known _ => ?_
  have start : code.Reached position := reached (by rw [known]; simp)
  rw [Code.getElem?_ofCode] at here
  have onwards {next : Nat} (leads : code.Leads position next) : code.Reached next :=
    Relation.ReflTransGen.tail start leads
  refine .bind ((gives_successors position placed).weaken fun _ _ => trivial) ?_
  intro targets reaches
  have seen := Spreads.see code.Reached flow (max entry.stack.length exit.stack.length)
    exit.locals.length
  refine .bind (.foldlM (fun target member before spread => ?_) seen) fun middle first => ?_
  · refine (spreads_arrive ?_ _ _ before).mono fun after step => spread.trans step
    rcases reaches.sources target member with ⟨offset, jumps, found⟩ | ⟨goes, rfl⟩
    · obtain ⟨other, there, rfl⟩ := Code.getElem?_of_position? found
      exact onwards (.jump here there jumps)
    · have inside := reaches.inside _ member
      have there := List.getElem?_eq_getElem (l := code.instructions) (by simpa [Body.ofCode] using inside)
      exact onwards (.fall here there goes rfl)
  · refine .foldlM (fun handler member before spread => ?_) first
    refine (spreads_catchIn here member).mono fun after step => spread.trans ?_
    exact ⟨step.size, step.kept, fun next known => (step.led next known).imp_right onwards⟩

structure Traced (code : Code) (flow : Flow) : Prop where
  size : flow.states.size = code.instructions.length
  reached : ∀ position, flow.stateAt? position ≠ none → code.Reached position

theorem Traced.spread {before after : Flow} (traced : Traced code before)
    (spreads : Spreads code.Reached before after) : Traced code after := by
  refine ⟨spreads.size.trans traced.size, fun position known => ?_⟩
  exact (spreads.led position known).elim (traced.reached position) id

theorem traced_run (steps : Nat) {flow : Flow} (traced : Traced code flow) :
    Gives context.hierarchy table (fun _ => True) (run context (Body.ofCode code) steps flow)
      (Traced code) := by
  refine .mono (.run trivial (fun before position rest _ held => ?_) steps traced) fun after kept => kept.1
  have still : Traced code { before with pending := rest } := ⟨held.size, held.reached⟩
  exact (spreads_visit position (still.reached position)).mono fun after spreads =>
    still.spread spreads

theorem traced_start (code : Code) (entry : FrameState) :
    Traced code (start (Body.ofCode code) entry) := by
  refine ⟨by simp [start, Body.ofCode], fun position known => ?_⟩
  by_cases first : position = 0
  · subst first
    exact .refl
  · exfalso
    apply known
    rw [stateAt?, start, Array.getElem?_setIfInBounds_ne (Ne.symm first), Array.getElem?_replicate]
    split <;> rfl

end Steps

end Flow

/-! Where instructions lead, there are states. -/

theorem Tiles.position_unique {start stop : Nat} {instructions : List Placed}
    (tiles : Tiles start instructions stop) {position other : Nat} {first second : Placed}
    (here : instructions[position]? = some first) (there : instructions[other]? = some second)
    (same : first.offset = second.offset) : position = other := by
  obtain ⟨inside, rfl⟩ := List.getElem?_eq_some_iff.1 here
  obtain ⟨room, rfl⟩ := List.getElem?_eq_some_iff.1 there
  have ascending := List.pairwise_iff_getElem.1 tiles.ascending
  rcases Nat.lt_trichotomy position other with below | equal | above
  · have lower := ascending position other inside room below
    omega
  · exact equal
  · have higher := ascending other position room inside above
    omega

namespace Code

variable {table : String → TypeMetadata} {owner : String} {code : Code} {flow : Flow}

theorem stateAt?_of_received (tiles : Tiles 0 code.instructions code.length) {next : Nat}
    {target : Placed} {state : FrameState} (there : code.instructions[next]? = some target)
    (received : Flow.Received table (Body.ofCode code) flow target.offset state) :
    flow.stateAt? next ≠ none := by
  obtain ⟨position, placed, recorded, here, starts, at_, -⟩ := received
  rw [getElem?_ofCode] at here
  rw [tiles.position_unique there here starts.symm, at_]
  simp

theorem stateAt?_of_leads (tiles : Tiles 0 code.instructions code.length) {position next : Nat}
    (settled : Flow.Settled table (Body.ofCode code) owner flow position)
    (known : flow.stateAt? position ≠ none) (leads : code.Leads position next) :
    flow.stateAt? next ≠ none := by
  obtain ⟨entry, at_⟩ := Option.ne_none_iff_exists'.1 known
  have told {placed : Placed} (here : code.instructions[position]? = some placed) :
      ∃ exit, Flow.Delivered table (Body.ofCode code) flow position placed entry exit := by
    rw [← getElem?_ofCode] at here
    obtain ⟨exit, -, delivered⟩ := settled placed entry here at_
    exact ⟨exit, delivered⟩
  cases leads with
  | jump here there jumps =>
    obtain ⟨exit, delivered⟩ := told here
    exact stateAt?_of_received tiles there (delivered.targets _ jumps)
  | fall here there goes behind =>
    obtain ⟨exit, delivered⟩ := told here
    obtain ⟨_, recorded, -, found, -⟩ := delivered.next goes
    rw [behind, found]
    simp
  | «catch» here there member start stop catches =>
    obtain ⟨exit, delivered⟩ := told here
    have received := (delivered.handlers _ member start stop).1
    rw [catches] at received
    exact stateAt?_of_received tiles there received

theorem stateAt?_iff_reached (tiles : Tiles 0 code.instructions code.length)
    (nonempty : code.instructions ≠ []) {entry : FrameState}
    (fixed : PostFixpoint table owner code entry flow) (traced : Flow.Traced code flow)
    (position : Nat) : flow.stateAt? position ≠ none ↔ code.Reached position := by
  constructor
  · exact traced.reached position
  · intro reached
    induction reached with
    | refl =>
      obtain ⟨recorded, at_, -⟩ := fixed.first nonempty
      rw [at_]
      simp
    | tail _ leads ih => exact stateAt?_of_leads tiles (fixed.settled _) ih leads

theorem traced_analyze (context : FrameContext) (table : String → TypeMetadata) (member : Member)
    (code : Code) (steps : Nat) :
    Flow.Gives context.hierarchy table (fun _ => True) (code.analyze context member steps)
      fun (_, flow) => Flow.Traced code flow := by
  unfold analyze
  split
  · exact .fail trivial
  · next entry _ =>
    exact .bind (Flow.traced_run steps (Flow.traced_start code entry)) fun flow traced => .pure traced

end Code

end ClassRenaming
