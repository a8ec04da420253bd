import ClassRenaming.Proofs.NamesInStates
import ClassRenaming.Proofs.RelabeledMerges

/-!
Runs of the analysis with new names. A body with new names has the same offsets and jumps, so two
runs visit the same instructions in the same order, with the same states up to names; if one fails
then so does the other, at the same offset.
-/

namespace ClassRenaming

/-! Bodies with new names. -/

def Handler.relabel (f : Relabeling) (handler : Handler) : Handler :=
  { handler with catchType := handler.catchType.map f.name }

namespace Body

variable (f : Relabeling)

def relabel (body : Body) : Body :=
  { body with
    instructions := body.instructions.map (Placed.relabel f)
    handlers := body.handlers.map (Handler.relabel f) }

structure WellNamed (body : Body) : Prop where
  operands : ∀ placed ∈ body.instructions, placed.instruction.WellNamed
  caught : ∀ handler ∈ body.handlers, ∀ name ∈ handler.catchType, ClassRenaming.WellNamed name

theorem made?_relabel (body : Body) (offset : Nat) :
    (body.relabel f).made? offset = (body.made? offset).map f.name := by
  unfold made?
  have position : (body.relabel f).position? offset = body.position? offset := rfl
  rw [position]
  cases body.position? offset with
  | none => rfl
  | some position =>
    have placed : (body.relabel f).instructions[position]? =
        body.instructions[position]?.map (Placed.relabel f) := Array.getElem?_map
    simp only [Option.bind_eq_bind, Option.bind_some, placed]
    cases body.instructions[position]? with
    | none => rfl
    | some placed =>
      obtain ⟨start, instruction⟩ := placed
      cases instruction with
      | type opcode name =>
        simp only [Option.map_some, Option.bind_some, Placed.relabel, Instruction.relabel]
        split <;> rfl
      | _ => rfl

theorem WellNamed.made {body : Body} (names : body.WellNamed) (offset : Nat) (name : String)
    (made : body.made? offset = some name) : ClassRenaming.WellNamed name := by
  obtain ⟨placed, member, shape⟩ := exists_of_made? made
  have operands := names.operands placed member
  rw [shape] at operands
  exact operands.1

end Body

theorem branchTargets_relabel (f : Relabeling) (instruction : Instruction) :
    (instruction.relabel f).branchTargets = instruction.branchTargets := by
  cases instruction <;> rfl

theorem endsBlock_relabel (f : Relabeling) (instruction : Instruction) :
    (instruction.relabel f).endsBlock = instruction.endsBlock := by
  cases instruction <;> rfl

/-! Flows with new names. -/

namespace Flow

def relabel (f : Relabeling) (flow : Flow) : Flow :=
  { flow with states := flow.states.map (Option.map (FrameState.relabel f)) }

structure Becomes (f : Relabeling) (flow other : Flow) : Prop where
  relabeled : other = flow.relabel f
  named : ∃ size, flow.Named WellNamed size

theorem stateAt?_relabel (f : Relabeling) (flow : Flow) (position : Nat) :
    (flow.relabel f).states[position]?.join =
      flow.states[position]?.join.map (FrameState.relabel f) := by
  rw [relabel, Array.getElem?_map]
  cases flow.states[position]? <;> rfl

namespace Becomes

variable {f : Relabeling} {flow other : Flow} {state result : FrameState}

theorem record (h : flow.Becomes f other) (here : state.Becomes f result) (position : Nat) :
    (flow.record position state).Becomes f (other.record position result) := by
  obtain ⟨rfl, size, named⟩ := h
  obtain ⟨rfl, also⟩ := here
  refine ⟨?_, size, named.record also position⟩
  simp only [Flow.record, Flow.relabel, Array.map_setIfInBounds, Option.map_some]

theorem mark (h : flow.Becomes f other) (position : Nat) :
    (flow.mark position).Becomes f (other.mark position) := by
  obtain ⟨rfl, size, named⟩ := h
  refine ⟨?_, size, named.mark position⟩
  unfold Flow.mark
  have pending : (flow.relabel f).pending = flow.pending := rfl
  rw [pending]
  split <;> rfl

theorem see (h : flow.Becomes f other) (stack locals : Nat) :
    (flow.see stack locals).Becomes f (other.see stack locals) := by
  obtain ⟨rfl, size, named⟩ := h
  exact ⟨rfl, size, named.size, named.states⟩

theorem take (h : flow.Becomes f other) (pending : List Nat) :
    ({ flow with pending } : Flow).Becomes f { other with pending } := by
  obtain ⟨rfl, size, named⟩ := h
  exact ⟨rfl, size, named.size, named.states⟩

theorem start (body : Body) (here : state.Becomes f result) :
    (Flow.start body state).Becomes f (Flow.start (body.relabel f) result) := by
  obtain ⟨rfl, named⟩ := here
  refine ⟨?_, _, Named.start body named⟩
  simp only [Flow.start, Flow.relabel, Body.relabel, Array.size_map, Array.map_setIfInBounds,
    Array.map_replicate, Option.map_some, Option.map_none, FrameState.relabel, List.length_map]

end Becomes

end Flow

def SameOffset (error other : FrameError) : Prop := other.offset = error.offset

namespace Twins

variable {f : Relabeling} (twins : Twins f)

/-- Two analyses, one of each hierarchy, whose results go together or which fail at one offset. -/
def Agrees {α β : Type} (related : α → β → Prop) (action : Analysis α) (other : Analysis β) : Prop :=
  twins.Pairs (Mirrors SameOffset related) action.run other.run

namespace Agrees

variable {twins} {α β γ δ : Type} {related : α → β → Prop} {results : γ → δ → Prop}
  {action : Analysis α} {other : Analysis β}

theorem pure {a : α} {b : β} (both : related a b) : twins.Agrees related (pure a) (pure b) :=
  Pairs.pure (.ok both)

theorem fail (offset : Nat) (fault cause : FrameFault) :
    twins.Agrees related (Flow.fail offset fault) (Flow.fail offset cause) :=
  Pairs.pure (.error rfl)

theorem lift {action : Resolving α} {other : Resolving β} (h : twins.Pairs related action other) :
    twins.Agrees related (liftM action) (liftM other) :=
  h.map fun _ _ both => .ok both

theorem bind {next : α → Analysis γ} {others : β → Analysis δ} (h : twins.Agrees related action other)
    (each : ∀ a b, related a b → twins.Agrees results (next a) (others b)) :
    twins.Agrees results (action >>= next) (other >>= others) := by
  unfold Agrees
  rw [ExceptT.run_bind, ExceptT.run_bind]
  apply Pairs.bind h
  rintro _ _ (both | same)
  · exact each _ _ both
  · exact .pure (.error same)

theorem mapM {items : List γ} {step : γ → Analysis α} {others : γ → Analysis β}
    (each : ∀ item, twins.Agrees related (step item) (others item)) :
    twins.Agrees (List.Forall₂ related) (items.mapM step) (items.mapM others) := by
  induction items with
  | nil =>
    rw [List.mapM_nil, List.mapM_nil]
    exact .pure .nil
  | cons item rest ih =>
    rw [List.mapM_cons, List.mapM_cons]
    apply (each item).bind
    intro a b first
    apply ih.bind
    intro as bs later
    exact .pure (.cons first later)

theorem foldlM {ι κ : Type} {pair : ι → κ → Prop} {items : List ι} {listed : List κ}
    {step : α → ι → Analysis α} {others : β → κ → Analysis β} (along : List.Forall₂ pair items listed)
    (each : ∀ a b item other, related a b → pair item other →
      twins.Agrees related (step a item) (others b other))
    {a : α} {b : β} (both : related a b) :
    twins.Agrees related (items.foldlM step a) (listed.foldlM others b) := by
  induction along generalizing a b with
  | nil => exact .pure both
  | cons first rest ih =>
    rw [List.foldlM_cons, List.foldlM_cons]
    apply (each a b _ _ both first).bind
    intro a b both
    exact ih both

end Agrees

variable {flow other : Flow} {body : Body} {owner : String}

theorem agrees_arrive {incoming result : FrameState} (here : incoming.Becomes f result)
    (both : flow.Becomes f other) (offset position : Nat) :
    twins.Agrees (Flow.Becomes f) (flow.arrive twins.first offset incoming position)
      (other.arrive twins.second offset result position) := by
  unfold Flow.arrive
  have found := both.relabeled ▸ Flow.stateAt?_relabel f flow position
  cases known : flow.states[position]?.join with
  | none =>
    rw [found, known]
    exact .pure ((both.record here position).mark position)
  | some recorded =>
    obtain ⟨size, named⟩ := both.named
    have before : recorded.Becomes f (recorded.relabel f) :=
      ⟨rfl, named.states position recorded known⟩
    rw [found, known]
    simp only [Option.map_some, ← before.stack.length_eq, ← here.stack.length_eq]
    split
    · exact .fail offset _ _
    · apply (Agrees.lift (twins.pairs_mergeStates before here)).bind
      intro merged after there
      have news : after = (recorded.relabel f).reserve after.locals.length ↔
          merged = recorded.reserve merged.locals.length := by
        rw [there.relabeled, FrameState.relabel, List.length_map,
          FrameState.Becomes.reserve_relabel, ← FrameState.relabel]
        exact (FrameState.relabel_injective f).eq_iff
      simp only [news]
      apply Agrees.pure
      split
      · exact both.record there position
      · exact (both.record there position).mark position

theorem agrees_successors (position : Nat) (placed : Placed) :
    twins.Agrees (· = ·) (Flow.successors body position placed)
      (Flow.successors (body.relabel f) position (placed.relabel f)) := by
  have targets : (placed.relabel f).instruction.branchTargets = placed.instruction.branchTargets :=
    branchTargets_relabel f _
  have ends : (placed.relabel f).instruction.endsBlock = placed.instruction.endsBlock :=
    endsBlock_relabel f _
  have size : (body.relabel f).instructions.size = body.instructions.size := Array.size_map
  unfold Flow.successors
  rw [targets, ends, size]
  refine Agrees.bind (Agrees.mapM ?each : twins.Agrees (List.Forall₂ (· = ·)) _ _) ?next
  case each =>
    intro target
    have same : (body.relabel f).position? target = body.position? target := rfl
    rw [same]
    split
    · exact .pure rfl
    · exact .fail _ _ _
  case next =>
    intro found others same
    rw [List.forall₂_eq_eq_eq] at same
    rw [same]
    split_ifs
    · exact .pure rfl
    · exact .pure rfl
    · exact .fail _ _ _

theorem agrees_catchIn {entry exit entered exited : FrameState} (before : entry.Becomes f entered)
    (after : exit.Becomes f exited) {handler : Handler}
    (names : ∀ name ∈ handler.catchType, WellNamed name) (both : flow.Becomes f other)
    (offset : Nat) :
    twins.Agrees (Flow.Becomes f) (Flow.catchIn twins.first body offset entry exit flow handler)
      (Flow.catchIn twins.second (body.relabel f) offset entered exited other
        (handler.relabel f)) := by
  have caught : (VerificationType.object (handler.catchType.getD throwableName)).Becomes f
      (.object ((handler.relabel f).catchType.getD throwableName)) := by
    rw [Handler.relabel]
    cases known : handler.catchType with
    | none => exact .fixed (by decide)
    | some name => exact .object (names name known)
  have brought {state result : FrameState} (here : state.Becomes f result) :
      FrameState.Becomes f
        { state with stack := [.object (handler.catchType.getD throwableName)] }
        { result with stack := [.object ((handler.relabel f).catchType.getD throwableName)] } :=
    .ofSlots here.locals (.cons caught .nil)
  unfold Flow.catchIn
  have start : (handler.relabel f).start = handler.start := rfl
  have stop : (handler.relabel f).stop = handler.stop := rfl
  have position : (body.relabel f).position? (handler.relabel f).target =
      body.position? handler.target := rfl
  rw [start, stop, position]
  split
  · exact .pure both
  · split
    · exact .fail _ _ _
    · next target _ =>
      apply (twins.agrees_arrive (brought before) (both.see 1 0) offset target).bind
      intro flow other both
      exact twins.agrees_arrive (brought after) both offset target

theorem agrees_visit (own : WellNamed owner) (names : body.WellNamed) (both : flow.Becomes f other)
    (position : Nat) :
    twins.Agrees (Flow.Becomes f) (Flow.visit ⟨twins.first, owner⟩ body position flow)
      (Flow.visit ⟨twins.second, f.name owner⟩ (body.relabel f) position other) := by
  unfold Flow.visit
  have found := both.relabeled ▸ Flow.stateAt?_relabel f flow position
  have listed : (body.relabel f).instructions[position]? =
      body.instructions[position]?.map (Placed.relabel f) := Array.getElem?_map
  have made : (body.relabel f).made? = fun offset => (body.made? offset).map f.name :=
    funext (body.made?_relabel f)
  rw [found, listed]
  cases at_ : body.instructions[position]? with
  | none => exact .pure both
  | some placed =>
    cases known : flow.states[position]?.join with
    | none => exact .pure both
    | some entry =>
      obtain ⟨size, named⟩ := both.named
      have before : entry.Becomes f (entry.relabel f) := ⟨rfl, named.states position entry known⟩
      have operands := names.operands placed (Array.mem_of_getElem? at_)
      have executed := before.execute own names.made placed operands
      simp only [Option.map_some, made]
      generalize entry.execute owner body.made? placed = outcome at executed ⊢
      generalize (entry.relabel f).execute (f.name owner) _ (placed.relabel f) = result at executed ⊢
      cases executed with
      | error _ => exact .fail _ _ _
      | @ok exit exited after =>
        dsimp only
        rw [← before.stack.length_eq, ← after.stack.length_eq, ← after.locals.length_eq]
        apply (twins.agrees_successors position placed).bind
        rintro targets _ rfl
        have handlers : List.Forall₂
            (fun handler other => other = handler.relabel f ∧ handler ∈ body.handlers)
            body.handlers (body.relabel f).handlers :=
          List.forall₂_map_right_iff.2 (List.forall₂_same.2 fun _ member => ⟨rfl, member⟩)
        have same : List.Forall₂ (· = ·) targets targets := List.forall₂_refl targets
        have seen := both.see (max entry.stack.length exit.stack.length) exit.locals.length
        apply (Agrees.foldlM same ?_ seen).bind
        · intro flow other both
          apply Agrees.foldlM handlers _ both
          rintro flow other handler _ both ⟨rfl, member⟩
          exact twins.agrees_catchIn before after (names.caught handler member) both placed.offset
        · rintro flow other target _ both rfl
          exact twins.agrees_arrive after both placed.offset target

theorem agrees_run (own : WellNamed owner) (names : body.WellNamed) (both : flow.Becomes f other)
    (steps : Nat) :
    twins.Agrees (Flow.Becomes f) (flow.run ⟨twins.first, owner⟩ body steps)
      (other.run ⟨twins.second, f.name owner⟩ (body.relabel f) steps) := by
  have pending {flow other : Flow} (both : flow.Becomes f other) : other.pending = flow.pending := by
    rw [both.relabeled, Flow.relabel]
  induction steps generalizing flow other with
  | zero =>
    rw [Flow.run, Flow.run, pending both]
    split
    · exact .pure both
    · exact .fail _ _ _
  | succ steps ih =>
    rw [Flow.run, Flow.run, pending both]
    split
    · exact .pure both
    · next position rest _ =>
      apply (twins.agrees_visit own names (both.take rest) position).bind
      intro flow other both
      exact ih both

end Twins

end ClassRenaming
