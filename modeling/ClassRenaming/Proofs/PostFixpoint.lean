import ClassRenaming.Frames.Recomputing
import ClassRenaming.Proofs.AlikeStates
import ClassRenaming.Proofs.Reading

/-!
What a finished analysis says of a body. While it runs, every instruction that has a state and is not
pending has told all instructions behind it; a visit takes one instruction from the pending ones and
restores this for it, so at the end it holds of every instruction.
-/

namespace ClassRenaming

open FrameState

/-! Instructions by offset. -/

namespace Body

theorem mem_of_foldl_setIfInBounds {pairs : List (Placed × Nat)}
    {table : Array (Option Nat)} {offset position : Nat}
    (found : (pairs.foldl (fun table (pair : Placed × Nat) =>
      table.setIfInBounds pair.1.offset (some pair.2)) table)[offset]?.join = some position) :
    table[offset]?.join = some position ∨
      ∃ placed, (placed, position) ∈ pairs ∧ placed.offset = offset := by
  induction pairs generalizing table with
  | nil => exact .inl found
  | cons pair rest ih =>
    rw [List.foldl_cons] at found
    rcases ih found with before | ⟨placed, member, starts⟩
    · by_cases here : pair.1.offset = offset
      · by_cases inside : offset < table.size
        · rw [here, Array.getElem?_setIfInBounds_self_of_lt inside] at before
          cases before
          exact .inr ⟨pair.1, List.mem_cons_self, here⟩
        · rw [Array.getElem?_eq_none (by simpa using inside)] at before
          cases before
      · rw [Array.getElem?_setIfInBounds_ne here] at before
        exact .inl before
    · exact .inr ⟨placed, List.mem_cons_of_mem _ member, starts⟩

theorem exists_of_position? {code : Code} {offset position : Nat}
    (found : (ofCode code).position? offset = some position) :
    ∃ placed, (ofCode code).instructions[position]? = some placed ∧ placed.offset = offset := by
  rcases mem_of_foldl_setIfInBounds found with initial | ⟨placed, member, starts⟩
  · rw [Array.getElem?_replicate] at initial
    split at initial <;> cases initial
  · obtain ⟨_, inside, at_⟩ := List.mem_zipIdx member
    refine ⟨placed, ?_, starts⟩
    simp only [ofCode, List.getElem?_toArray, at_, Nat.sub_zero]
    exact List.getElem?_eq_getElem (by omega)

end Body

/-! What an instruction has told the ones behind it. -/

namespace Flow

def stateAt? (flow : Flow) (position : Nat) : Option FrameState := flow.states[position]?.join

def caught (handler : Handler) (state : FrameState) : FrameState :=
  { state with stack := [.object (handler.catchType.getD throwableName)] }

variable (table : String → TypeMetadata) (body : Body)

def Received (flow : Flow) (offset : Nat) (state : FrameState) : Prop :=
  ∃ position placed recorded, body.instructions[position]? = some placed ∧
    placed.offset = offset ∧ flow.stateAt? position = some recorded ∧
    StateBelow table state recorded

def ReceivedNext (flow : Flow) (position : Nat) (state : FrameState) : Prop :=
  ∃ placed recorded, body.instructions[position + 1]? = some placed ∧
    flow.stateAt? (position + 1) = some recorded ∧ StateBelow table state recorded

structure Delivered (flow : Flow) (position : Nat) (placed : Placed) (entry exit : FrameState) :
    Prop where
  targets : ∀ target ∈ placed.instruction.branchTargets, Received table body flow target exit
  next : ¬ placed.instruction.endsBlock → ReceivedNext table body flow position exit
  handlers : ∀ handler ∈ body.handlers,
    handler.start ≤ placed.offset → placed.offset < handler.stop →
      Received table body flow handler.target (caught handler entry) ∧
        Received table body flow handler.target (caught handler exit)

def Settled (owner : String) (flow : Flow) (position : Nat) : Prop :=
  ∀ placed entry, body.instructions[position]? = some placed → flow.stateAt? position = some entry →
    ∃ exit, entry.execute owner body.made? placed = .ok exit ∧
      Delivered table body flow position placed entry exit

end Flow

theorem Alike.stateBelow {a b : FrameState} (h : Alike a b) (table : String → TypeMetadata) :
    StateBelow table a b := by
  refine ⟨by rw [h.stack], fun index => ?_, fun index => ?_⟩
  · rw [h.locals]
    exact .refl _
  · rw [h.stack]
    exact .refl _

namespace Flow

def Grows (table : String → TypeMetadata) (before after : Flow) : Prop :=
  ∀ position old, before.stateAt? position = some old →
    ∃ new, after.stateAt? position = some new ∧ StateBelow table old new

theorem Grows.refl (table : String → TypeMetadata) (flow : Flow) : Grows table flow flow :=
  fun _ old at_ => ⟨old, at_, .refl table old⟩

theorem Grows.trans {table : String → TypeMetadata} {a b c : Flow} (first : Grows table a b)
    (second : Grows table b c) : Grows table a c := by
  intro position old at_
  obtain ⟨middle, there, low⟩ := first position old at_
  obtain ⟨new, here, high⟩ := second position middle there
  exact ⟨new, here, low.trans high⟩

/-- States only grow, and an instruction whose state says something new is pending. -/
structure Advances (table : String → TypeMetadata) (before after : Flow) : Prop where
  size : after.states.size = before.states.size
  pending : ∀ position ∈ before.pending, position ∈ after.pending
  grown : Grows table before after
  news : ∀ position new, after.stateAt? position = some new →
    position ∈ after.pending ∨ ∃ old, before.stateAt? position = some old ∧ Alike old new

namespace Advances

variable {table : String → TypeMetadata} {a b c : Flow}

theorem refl (table : String → TypeMetadata) (flow : Flow) : Advances table flow flow where
  size := rfl
  pending _ member := member
  grown := .refl table flow
  news _ state at_ := .inr ⟨state, at_, .refl state⟩

theorem trans (first : Advances table a b) (second : Advances table b c) : Advances table a c where
  size := second.size.trans first.size
  pending position member := second.pending position (first.pending position member)
  grown := first.grown.trans second.grown
  news position new at_ := by
    rcases second.news position new at_ with waiting | ⟨middle, there, like⟩
    · exact .inl waiting
    · rcases first.news position middle there with waiting | ⟨old, before, likewise⟩
      · exact .inl (second.pending position waiting)
      · exact .inr ⟨old, before, likewise.trans like⟩

theorem see (table : String → TypeMetadata) (flow : Flow) (stack locals : Nat) :
    Advances table flow (flow.see stack locals) where
  size := rfl
  pending _ member := member
  grown _ state at_ := ⟨state, at_, .refl table state⟩
  news _ state at_ := .inr ⟨state, at_, .refl state⟩

end Advances

section Delivery

variable {table : String → TypeMetadata} {body : Body} {a b : Flow}

theorem Received.mono {offset : Nat} {small large : FrameState}
    (h : Received table body a offset large) (low : StateBelow table small large)
    (grows : Grows table a b) : Received table body b offset small := by
  obtain ⟨position, placed, recorded, found, starts, at_, below⟩ := h
  obtain ⟨new, here, high⟩ := grows position recorded at_
  exact ⟨position, placed, new, found, starts, here, low.trans (below.trans high)⟩

theorem ReceivedNext.mono {position : Nat} {small large : FrameState}
    (h : ReceivedNext table body a position large) (low : StateBelow table small large)
    (grows : Grows table a b) : ReceivedNext table body b position small := by
  obtain ⟨placed, recorded, found, at_, below⟩ := h
  obtain ⟨new, here, high⟩ := grows (position + 1) recorded at_
  exact ⟨placed, new, found, here, low.trans (below.trans high)⟩

theorem caught_stateBelow (handler : Handler) {small large : FrameState}
    (low : SlotsBelow table small.locals large.locals) :
    StateBelow table (caught handler small) (caught handler large) :=
  ⟨rfl, low, .refl table _⟩

theorem Delivered.mono {position : Nat} {placed : Placed} {entry exit entry' exit' : FrameState}
    (h : Delivered table body a position placed entry exit) (grows : Grows table a b)
    (entries : Alike entry entry') (exits : Alike exit exit') :
    Delivered table body b position placed entry' exit' where
  targets target member := (h.targets target member).mono (exits.symm.stateBelow table) grows
  next goes := (h.next goes).mono (exits.symm.stateBelow table) grows
  handlers handler member start stop := by
    obtain ⟨before, after⟩ := h.handlers handler member start stop
    have low := caught_stateBelow handler (entries.symm.stateBelow table).locals
    have high := caught_stateBelow handler (exits.symm.stateBelow table).locals
    exact ⟨before.mono low grows, after.mono high grows⟩

theorem Settled.grow {owner : String} {position : Nat}
    (h : Settled table body owner a position) (grows : Grows table a b)
    (silent : ∀ new, b.stateAt? position = some new →
      ∃ old, a.stateAt? position = some old ∧ Alike old new) :
    Settled table body owner b position := by
  intro placed entry' found here
  obtain ⟨entry, before, like⟩ := silent entry' here
  obtain ⟨exit, done, told⟩ := h placed entry found before
  obtain ⟨exit', done', likewise⟩ := (like.execute owner body.made? placed).exists_ok done
  exact ⟨exit', done', told.mono grows like likewise⟩

end Delivery

/-! Steps of the analysis. -/

/-- Every result of a computation has a property, and so has every fault, as long as the answers are
those of one table. -/
def Gives {α : Type} (hierarchy : Hierarchy) (table : String → TypeMetadata)
    (fails : FrameFault → Prop) (action : Analysis α) (good : α → Prop) : Prop :=
  Ensures hierarchy table action.run fun
    | .ok value => good value
    | .error error => fails error.fault

namespace Gives

variable {α β : Type} {hierarchy : Hierarchy} {table : String → TypeMetadata}
  {fails : FrameFault → Prop}

theorem pure {value : α} {good : α → Prop} (h : good value) :
    Gives hierarchy table fails (pure value) good := Ensures.pure h

theorem fail {offset : Nat} {fault : FrameFault} {good : α → Prop} (h : fails fault) :
    Gives hierarchy table fails (fail offset fault) good := Ensures.pure h

theorem bind {action : Analysis α} {next : α → Analysis β} {good : α → Prop} {result : β → Prop}
    (first : Gives hierarchy table fails action good)
    (second : ∀ value, good value → Gives hierarchy table fails (next value) result) :
    Gives hierarchy table fails (action >>= next) result := by
  rw [Gives, ExceptT.run_bind]
  refine Ensures.bind first ?_
  rintro (error | value) found
  · exact Ensures.pure found
  · exact second value found

theorem lift {action : Resolving α} {good : α → Prop} (h : Ensures hierarchy table action good) :
    Gives hierarchy table fails (liftM action) good := Ensures.map h fun _ found => found

theorem mono {action : Analysis α} {good better : α → Prop}
    (h : Gives hierarchy table fails action good) (weaker : ∀ value, good value → better value) :
    Gives hierarchy table fails action better := by
  refine Ensures.mono h ?_
  rintro (error | value) found
  · exact found
  · exact weaker value found

theorem and {action : Analysis α} {good other : α → Prop}
    (h : Gives hierarchy table fails action good) (also : Gives hierarchy table fails action other) :
    Gives hierarchy table fails action fun value => good value ∧ other value := by
  refine Ensures.mono (Ensures.and h also) ?_
  rintro (error | value) both
  · exact both.1
  · exact both

theorem weaken {action : Analysis α} {good : α → Prop} {others : FrameFault → Prop}
    (h : Gives hierarchy table fails action good) (weaker : ∀ fault, fails fault → others fault) :
    Gives hierarchy table others action good := by
  refine Ensures.mono h ?_
  rintro (error | value) found
  · exact weaker _ found
  · exact found

theorem foldlM {items : List β} {step : α → β → Analysis α} {kept : α → Prop}
    (each : ∀ item ∈ items, ∀ before, kept before →
      Gives hierarchy table fails (step before item) kept) {start : α} (held : kept start) :
    Gives hierarchy table fails (items.foldlM step start) kept := by
  induction items generalizing start with
  | nil => exact .pure held
  | cons item rest ih =>
    rw [List.forall_mem_cons] at each
    rw [List.foldlM_cons]
    exact .bind (each.1 start held) fun middle still => ih each.2 still

end Gives

abbrev IsFault (fault : FrameFault) : Prop := fault ≠ .outOfSteps

theorem isFault_heightsDiffer (left right : Nat) : IsFault (.heightsDiffer left right) := by
  rintro ⟨⟩

section Steps

variable {hierarchy : Hierarchy} {table : String → TypeMetadata} {fails : FrameFault → Prop}
  {flow : Flow}

theorem stateAt?_record {position : Nat} (inside : position < flow.states.size) (state : FrameState)
    (other : Nat) :
    (flow.record position state).stateAt? other =
      if other = position then some state else flow.stateAt? other := by
  simp only [stateAt?, record]
  by_cases same : other = position
  · subst same
    rw [Array.getElem?_setIfInBounds_self_of_lt inside, if_pos rfl, Option.join_some]
  · rw [Array.getElem?_setIfInBounds_ne (Ne.symm same), if_neg same]

theorem stateAt?_of_record {position other : Nat} {state found : FrameState}
    (at_ : (flow.record position state).stateAt? other = some found) :
    other = position ∧ found = state ∨ flow.stateAt? other = some found := by
  rw [stateAt?, record, Array.getElem?_setIfInBounds] at at_
  split at at_
  · next same =>
    split at at_
    · cases at_
      exact .inl ⟨same.symm, rfl⟩
    · cases at_
  · exact .inr at_

theorem mem_pending_mark (flow : Flow) (position : Nat) : position ∈ (flow.mark position).pending := by
  unfold mark
  split
  · next listed => exact listed
  · exact List.mem_cons_self

theorem pending_mark {flow : Flow} {position other : Nat} (member : other ∈ flow.pending) :
    other ∈ (flow.mark position).pending := by
  unfold mark
  split
  · exact member
  · exact List.mem_cons_of_mem _ member

theorem states_mark (flow : Flow) (position : Nat) : (flow.mark position).states = flow.states := by
  unfold mark
  split <;> rfl

theorem stateAt?_mark (flow : Flow) (position other : Nat) :
    (flow.mark position).stateAt? other = flow.stateAt? other := by
  rw [stateAt?, states_mark, stateAt?]

theorem advances_record {position : Nat} {state : FrameState} {after : Flow}
    (inside : position < flow.states.size)
    (states : after.states = (flow.record position state).states)
    (pending : ∀ other ∈ flow.pending, other ∈ after.pending)
    (larger : ∀ old, flow.stateAt? position = some old → StateBelow table old state)
    (news : position ∈ after.pending ∨ ∃ old, flow.stateAt? position = some old ∧ Alike old state) :
    Advances table flow after := by
  have entries (other : Nat) : after.stateAt? other =
      if other = position then some state else flow.stateAt? other := by
    rw [← stateAt?_record inside state other, stateAt?, states, stateAt?]
  refine ⟨?_, pending, fun other old at_ => ?_, fun other new at_ => ?_⟩
  · rw [states]
    exact Array.size_setIfInBounds
  · rw [entries]
    by_cases same : other = position
    · subst same
      exact ⟨state, if_pos rfl, larger old at_⟩
    · exact ⟨old, by rw [if_neg same, at_], .refl table old⟩
  · rw [entries] at at_
    by_cases same : other = position
    · subst same
      rw [if_pos rfl] at at_
      cases at_
      exact news
    · rw [if_neg same] at at_
      exact .inr ⟨new, at_, .refl new⟩

theorem alike_reserve (length : Nat) (state : FrameState) : Alike state (state.reserve length) :=
  ⟨rfl, fun index => (slotAt_extend length state.locals index).symm⟩

theorem Gives.arrive {offset position : Nat} {incoming : FrameState} {good : Flow → Prop}
    (first : flow.stateAt? position = none → good ((flow.record position incoming).mark position))
    (differ : ∀ left right, fails (.heightsDiffer left right))
    (merges : ∀ recorded, flow.stateAt? position = some recorded →
      recorded.stack.length = incoming.stack.length →
        Ensures hierarchy table (hierarchy.mergeStates recorded incoming) fun merged =>
          good (if merged = recorded.reserve merged.locals.length then flow.record position merged
            else (flow.record position merged).mark position)) :
    Gives hierarchy table fails (flow.arrive hierarchy offset incoming position) good := by
  unfold Flow.arrive
  cases known : flow.states[position]?.join with
  | none => exact .pure (first known)
  | some recorded =>
    dsimp only
    split
    · exact .fail (differ _ _)
    · next level =>
      exact .bind (.lift (merges recorded known (not_not.1 level))) fun merged done => .pure done

theorem gives_arrive {offset position : Nat} {incoming : FrameState}
    (inside : position < flow.states.size) :
    Gives hierarchy table IsFault (flow.arrive hierarchy offset incoming position) fun after =>
      Advances table flow after ∧
        ∃ recorded, after.stateAt? position = some recorded ∧
          StateBelow table incoming recorded := by
  refine .arrive (fun fresh => ⟨?_, incoming, ?_, .refl table incoming⟩) isFault_heightsDiffer
    fun recorded at_ height => (ensures_mergeStates height).mono ?_
  · refine advances_record inside (states_mark _ _) (fun other member => pending_mark member) ?_
      (.inl (mem_pending_mark _ _))
    intro old at_
    rw [fresh] at at_
    cases at_
  · rw [stateAt?_mark, stateAt?_record inside, if_pos rfl]
  · rintro merged ⟨grows, receives, -⟩
    have larger (old : FrameState) (old_ : flow.stateAt? position = some old) :
        StateBelow table old merged := by
      rw [at_] at old_
      cases old_
      exact grows
    split
    · next silent =>
      refine ⟨advances_record inside rfl (fun _ member => member) larger ?_, merged, ?_, receives⟩
      · refine .inr ⟨recorded, at_, ?_⟩
        rw [silent]
        exact alike_reserve _ recorded
      · rw [stateAt?_record inside, if_pos rfl]
    · refine ⟨?_, merged, ?_, receives⟩
      · exact advances_record inside (states_mark _ _) (fun other member => pending_mark member)
          larger (.inl (mem_pending_mark _ _))
      · rw [stateAt?_mark, stateAt?_record inside, if_pos rfl]

theorem Gives.catchIn {body : Body} {offset : Nat} {entry exit : FrameState} {handler : Handler}
    {good : Flow → Prop} (outside : ¬ (handler.start ≤ offset ∧ offset < handler.stop) → good flow)
    (missing : body.position? handler.target = none → fails (.noInstruction handler.target))
    (covered : ∀ target, handler.start ≤ offset ∧ offset < handler.stop →
      body.position? handler.target = some target → Gives hierarchy table fails (do
        let middle ← (flow.see 1 0).arrive hierarchy offset (caught handler entry) target
        middle.arrive hierarchy offset (caught handler exit) target) good) :
    Gives hierarchy table fails (Flow.catchIn hierarchy body offset entry exit flow handler) good := by
  unfold Flow.catchIn
  split
  · exact .pure (outside (by omega))
  · cases found : body.position? handler.target with
    | none => exact .fail (missing found)
    | some target => exact covered target (by omega) found

theorem gives_foldlM {ι : Type} {items : List ι} {step : Flow → ι → Analysis Flow}
    {related : Flow → Flow → Prop} {told : Flow → ι → Prop} (refl : ∀ flow, related flow flow)
    (trans : ∀ {a b c}, related a b → related b c → related a c)
    (keeps : ∀ before after item, told before item → related before after → told after item)
    (each : ∀ item ∈ items, ∀ before, related flow before →
      Gives hierarchy table fails (step before item) fun after =>
        related before after ∧ told after item) :
    Gives hierarchy table fails (items.foldlM step flow) fun after =>
      related flow after ∧ ∀ item ∈ items, told after item := by
  induction items generalizing flow with
  | nil => exact .pure ⟨refl flow, fun _ member => by cases member⟩
  | cons item rest ih =>
    rw [List.foldlM_cons]
    refine .bind (each item List.mem_cons_self flow (refl flow)) ?_
    rintro middle ⟨first, heard⟩
    refine .mono (ih fun other member before later => ?_) ?_
    · exact each other (List.mem_cons_of_mem _ member) before (trans first later)
    rintro after ⟨second, all⟩
    refine ⟨trans first second, fun other member => ?_⟩
    rcases List.mem_cons.1 member with rfl | later
    · exact keeps middle after other heard second
    · exact all other later

theorem gives_mapM {α β : Type} {items : List α} {step : α → Analysis β} {good : α → β → Prop}
    (each : ∀ item ∈ items, Gives hierarchy table fails (step item) (good item)) :
    Gives hierarchy table fails (items.mapM step) fun values =>
      (∀ item ∈ items, ∃ value ∈ values, good item value) ∧
        ∀ value ∈ values, ∃ item ∈ items, good item value := by
  induction items with
  | nil =>
    rw [List.mapM_nil]
    refine .pure ⟨?_, ?_⟩ <;> intro _ member <;> cases member
  | cons item rest ih =>
    rw [List.mapM_cons]
    refine .bind (each item List.mem_cons_self) fun value here => ?_
    refine .bind (ih fun other member => each other (List.mem_cons_of_mem _ member)) ?_
    rintro values ⟨there, back⟩
    refine .pure ⟨fun other member => ?_, fun other member => ?_⟩
    · rcases List.mem_cons.1 member with rfl | later
      · exact ⟨value, List.mem_cons_self, here⟩
      · obtain ⟨found, listed, fits⟩ := there other later
        exact ⟨found, List.mem_cons_of_mem _ listed, fits⟩
    · rcases List.mem_cons.1 member with rfl | later
      · exact ⟨item, List.mem_cons_self, here⟩
      · obtain ⟨found, listed, fits⟩ := back other later
        exact ⟨found, List.mem_cons_of_mem _ listed, fits⟩

end Steps

section Visits

variable {context : FrameContext} {table : String → TypeMetadata} {code : Code} {flow : Flow}

structure Reaches (code : Code) (position : Nat) (placed : Placed) (found : List Nat) : Prop where
  inside : ∀ target ∈ found, target < (Body.ofCode code).instructions.size
  targets : ∀ offset ∈ placed.instruction.branchTargets, ∃ target ∈ found,
    (Body.ofCode code).position? offset = some target
  next : ¬ placed.instruction.endsBlock → position + 1 ∈ found
  sources : ∀ target ∈ found, (∃ offset ∈ placed.instruction.branchTargets,
    (Body.ofCode code).position? offset = some target) ∨
      ¬ placed.instruction.endsBlock ∧ target = position + 1

theorem inside_of_position? {offset position : Nat}
    (found : (Body.ofCode code).position? offset = some position) :
    position < (Body.ofCode code).instructions.size := by
  obtain ⟨placed, at_, -⟩ := Body.exists_of_position? found
  exact (Array.getElem?_eq_some_iff.1 at_).1

theorem gives_successors (position : Nat) (placed : Placed) :
    Gives context.hierarchy table IsFault (successors (Body.ofCode code) position placed)
      (Reaches code position placed) := by
  unfold successors
  refine .bind (gives_mapM (fun offset _ => ?looked) :
    Gives _ _ _ _ fun found => (∀ offset ∈ placed.instruction.branchTargets,
        ∃ target ∈ found, (Body.ofCode code).position? offset = some target) ∧
      ∀ target ∈ found, ∃ offset ∈ placed.instruction.branchTargets,
        (Body.ofCode code).position? offset = some target) ?_
  case looked =>
    cases found : (Body.ofCode code).position? offset with
    | none => exact .fail nofun
    | some target => exact .pure rfl
  rintro found ⟨targets, back⟩
  have inside : ∀ target ∈ found, target < (Body.ofCode code).instructions.size := by
    intro target member
    obtain ⟨offset, -, at_⟩ := back target member
    exact inside_of_position? at_
  split
  · next ends =>
    exact .pure ⟨inside, targets, fun goes => absurd ends goes,
      fun target member => .inl (back target member)⟩
  · next goes =>
    split
    · next room =>
      refine .pure ⟨fun target member => ?_, fun offset member => ?_, fun _ => ?_,
        fun target member => ?_⟩
      · rcases List.mem_append.1 member with listed | last
        · exact inside target listed
        · rw [List.mem_singleton.1 last]
          exact room
      · obtain ⟨target, listed, at_⟩ := targets offset member
        exact ⟨target, List.mem_append_left _ listed, at_⟩
      · exact List.mem_append_right _ (List.mem_singleton.2 rfl)
      · rcases List.mem_append.1 member with listed | last
        · exact .inl (back target listed)
        · exact .inr ⟨goes, List.mem_singleton.1 last⟩
    · exact .fail nofun

def Caught (table : String → TypeMetadata) (code : Code) (offset : Nat) (entry exit : FrameState)
    (flow : Flow) (handler : Handler) : Prop :=
  handler.start ≤ offset → offset < handler.stop →
    Received table (Body.ofCode code) flow handler.target (caught handler entry) ∧
      Received table (Body.ofCode code) flow handler.target (caught handler exit)

theorem received_of_stateAt? {offset position : Nat} {state recorded : FrameState}
    (found : (Body.ofCode code).position? offset = some position)
    (at_ : flow.stateAt? position = some recorded) (below : StateBelow table state recorded) :
    Received table (Body.ofCode code) flow offset state := by
  obtain ⟨placed, here, starts⟩ := Body.exists_of_position? found
  exact ⟨position, placed, recorded, here, starts, at_, below⟩

theorem gives_catchIn {offset : Nat} {entry exit : FrameState} (handler : Handler)
    (size : flow.states.size = (Body.ofCode code).instructions.size) :
    Gives context.hierarchy table IsFault
      (catchIn context.hierarchy (Body.ofCode code) offset entry exit flow handler) fun after =>
        Advances table flow after ∧ Caught table code offset entry exit after handler := by
  refine .catchIn (fun outside => ⟨.refl table flow, fun start stop => absurd ⟨start, stop⟩ outside⟩)
    nofun fun target _ found => ?_
  have seen := Advances.see table flow 1 0
  have inside : target < (flow.see 1 0).states.size := by
    rw [seen.size, size]
    exact inside_of_position? found
  refine .bind (gives_arrive inside) ?_
  rintro middle ⟨first, low, at_, below⟩
  have still : target < middle.states.size := by
    rw [first.size]
    exact inside
  refine .mono (gives_arrive still) ?_
  rintro after ⟨second, high, here, above⟩
  refine ⟨seen.trans (first.trans second), fun _ _ => ⟨?_, ?_⟩⟩
  · exact (received_of_stateAt? found at_ below).mono (.refl table _) second.grown
  · exact received_of_stateAt? found here above

theorem gives_arrivals {offset : Nat} {exit : FrameState} {targets : List Nat}
    (inside : ∀ target ∈ targets, target < flow.states.size) :
    Gives context.hierarchy table IsFault
      (targets.foldlM (fun flow target => flow.arrive context.hierarchy offset exit target) flow)
      fun after => Advances table flow after ∧ ∀ target ∈ targets,
        ∃ recorded, after.stateAt? target = some recorded ∧ StateBelow table exit recorded := by
  refine gives_foldlM (.refl table) .trans ?_ ?_
  · rintro before after target ⟨recorded, at_, below⟩ step
    obtain ⟨new, here, high⟩ := step.grown target recorded at_
    exact ⟨new, here, below.trans high⟩
  · intro target member before step
    refine gives_arrive ?_
    rw [step.size]
    exact inside target member

theorem gives_handlers {offset : Nat} {entry exit : FrameState} {handlers : List Handler}
    (size : flow.states.size = (Body.ofCode code).instructions.size) :
    Gives context.hierarchy table IsFault
      (handlers.foldlM (catchIn context.hierarchy (Body.ofCode code) offset entry exit) flow)
      fun after => Advances table flow after ∧
        ∀ handler ∈ handlers, Caught table code offset entry exit after handler := by
  refine gives_foldlM (.refl table) .trans ?_ fun handler _ before step =>
    gives_catchIn handler (step.size.trans size)
  intro before after handler told step start stop
  obtain ⟨low, high⟩ := told start stop
  exact ⟨low.mono (.refl table _) step.grown, high.mono (.refl table _) step.grown⟩

theorem isFault_of_execute {owner : String} {made : Nat → Option String} {placed : Placed}
    {entry : FrameState} {fault : FrameFault}
    (failed : entry.execute owner made placed = .error fault) : IsFault fault :=
  ((Alike.refl entry).execute owner made placed).ne_outOfSteps failed

theorem Gives.visit {body : Body} {position : Nat} {fails : FrameFault → Prop} {good : Flow → Prop}
    (idle : (∀ placed entry, body.instructions[position]? = some placed →
      flow.stateAt? position ≠ some entry) → good flow)
    (faults : ∀ placed entry fault, body.instructions[position]? = some placed →
      flow.stateAt? position = some entry →
        entry.execute context.owner body.made? placed = .error fault → fails fault)
    (tells : ∀ placed entry exit, body.instructions[position]? = some placed →
      flow.stateAt? position = some entry →
        entry.execute context.owner body.made? placed = .ok exit →
          Gives context.hierarchy table fails (do
            let targets ← successors body position placed
            let reached ← targets.foldlM
              (fun flow target => flow.arrive context.hierarchy placed.offset exit target)
              (flow.see (max entry.stack.length exit.stack.length) exit.locals.length)
            body.handlers.foldlM (Flow.catchIn context.hierarchy body placed.offset entry exit)
              reached)
            good) :
    Gives context.hierarchy table fails (Flow.visit context body position flow) good := by
  unfold Flow.visit
  cases here : body.instructions[position]? with
  | none => exact .pure (idle fun placed entry found => by rw [here] at found; cases found)
  | some placed =>
    cases known : flow.states[position]?.join with
    | none => exact .pure (idle fun _ _ _ found => by rw [stateAt?, known] at found; cases found)
    | some entry =>
      dsimp only
      cases done : entry.execute context.owner body.made? placed with
      | error fault => exact .fail (faults placed entry fault here known done)
      | ok exit => exact tells placed entry exit here known done

theorem gives_visit (position : Nat)
    (size : flow.states.size = (Body.ofCode code).instructions.size) :
    Gives context.hierarchy table IsFault (visit context (Body.ofCode code) position flow) fun after =>
      Advances table flow after ∧
        ∀ placed entry, (Body.ofCode code).instructions[position]? = some placed →
          flow.stateAt? position = some entry →
            ∃ exit, entry.execute context.owner (Body.ofCode code).made? placed = .ok exit ∧
              Delivered table (Body.ofCode code) after position placed entry exit := by
  refine .visit (fun absent => ⟨.refl table flow, fun placed entry here at_ => ?_⟩)
    (fun _ _ _ _ _ failed => isFault_of_execute failed) fun placed entry exit here at_ done => ?_
  · exact absurd at_ (absent placed entry here)
  · have seen := Advances.see table flow (max entry.stack.length exit.stack.length)
      exit.locals.length
    refine .bind (gives_successors position placed) ?_
    intro targets reaches
    refine .bind (gives_arrivals fun target member => ?_) ?_
    · rw [seen.size, size]
      exact reaches.inside target member
    rintro middle ⟨first, told⟩
    refine .mono (gives_handlers ?_) ?_
    · rw [first.size, seen.size, size]
    rintro after ⟨second, handed⟩
    refine ⟨seen.trans (first.trans second), fun other state same known => ?_⟩
    obtain rfl : placed = other := Option.some.inj (here.symm.trans same)
    obtain rfl : entry = state := Option.some.inj (at_.symm.trans known)
    refine ⟨exit, done, ⟨fun offset member => ?_, fun goes => ?_, handed⟩⟩
    · obtain ⟨target, listed, found⟩ := reaches.targets offset member
      obtain ⟨recorded, here, below⟩ := told target listed
      exact (received_of_stateAt? found here below).mono (.refl table _) second.grown
    · have listed := reaches.next goes
      obtain ⟨recorded, here, below⟩ := told _ listed
      have room := reaches.inside _ listed
      have received : ReceivedNext table (Body.ofCode code) middle position exit :=
        ⟨_, recorded, Array.getElem?_eq_getElem room, here, below⟩
      exact received.mono (.refl table _) second.grown

end Visits

section Runs

variable {context : FrameContext} {table : String → TypeMetadata} {code : Code}

theorem Gives.run {body : Body} {fails : FrameFault → Prop} {kept : Flow → Prop}
    (unfinished : fails .outOfSteps)
    (visits : ∀ (flow : Flow) (position : Nat) (rest : List Nat), flow.pending = position :: rest →
      kept flow → Gives context.hierarchy table fails
        (Flow.visit context body position { flow with pending := rest }) kept)
    (steps : Nat) {flow : Flow} (held : kept flow) :
    Gives context.hierarchy table fails (Flow.run context body steps flow) fun after =>
      kept after ∧ after.pending = [] := by
  induction steps generalizing flow with
  | zero =>
    rw [Flow.run]
    split
    · next ended => exact .pure ⟨held, List.isEmpty_iff.1 ended⟩
    · exact .fail unfinished
  | succ steps ih =>
    rw [Flow.run]
    split
    · next ended => exact .pure ⟨held, ended⟩
    · next position rest pending => exact .bind (visits flow position rest pending held) fun _ => ih

/-- All instructions that are not pending are settled. -/
structure Consistent (context : FrameContext) (table : String → TypeMetadata) (code : Code)
    (flow : Flow) : Prop where
  size : flow.states.size = (Body.ofCode code).instructions.size
  settled : ∀ position ∉ flow.pending,
    Settled table (Body.ofCode code) context.owner flow position

theorem Consistent.visit {flow : Flow} {position : Nat} {rest : List Nat}
    (consistent : Consistent context table code flow) (pending : flow.pending = position :: rest) :
    Gives context.hierarchy table IsFault
      (Flow.visit context (Body.ofCode code) position { flow with pending := rest }) fun after =>
        Advances table { flow with pending := rest } after ∧
          Consistent context table code after := by
  refine .mono (gives_visit position consistent.size) ?_
  rintro after ⟨step, told⟩
  refine ⟨step, ⟨step.size.trans consistent.size, fun other idle => ?_⟩⟩
  by_cases here : other = position
  · subst here
    intro placed entry' found at_
    rcases step.news other entry' at_ with waiting | ⟨entry, before, like⟩
    · exact absurd waiting idle
    · obtain ⟨exit, done, delivered⟩ := told placed entry found before
      obtain ⟨exit', done', likewise⟩ :=
        (like.execute context.owner (Body.ofCode code).made? placed).exists_ok done
      exact ⟨exit', done', delivered.mono (.refl table after) like likewise⟩
  · have before : other ∉ flow.pending := by
      rw [pending]
      intro member
      rcases List.mem_cons.1 member with same | later
      · exact here same
      · exact idle (step.pending other later)
    refine (consistent.settled other before).grow step.grown fun new at_ => ?_
    exact (step.news other new at_).resolve_left idle

theorem gives_run (steps : Nat) {flow : Flow} (consistent : Consistent context table code flow) :
    Gives context.hierarchy table (fun _ => True) (run context (Body.ofCode code) steps flow) fun after =>
      Grows table flow after ∧
        ∀ position, Settled table (Body.ofCode code) context.owner after position := by
  have visits (before : Flow) (position : Nat) (rest : List Nat)
      (pending : before.pending = position :: rest)
      (held : Grows table flow before ∧ Consistent context table code before) :
      Gives context.hierarchy table (fun _ => True)
        (Flow.visit context (Body.ofCode code) position { before with pending := rest }) fun after =>
          Grows table flow after ∧ Consistent context table code after := by
    refine .mono ((held.2.visit pending).weaken fun _ _ => trivial) ?_
    rintro after ⟨step, still⟩
    exact ⟨held.1.trans step.grown, still⟩
  refine .mono (.run trivial visits steps ⟨.refl table flow, consistent⟩) ?_
  rintro after ⟨⟨grown, settled⟩, ended⟩
  refine ⟨grown, fun position => settled.settled position ?_⟩
  rw [ended]
  exact List.not_mem_nil

theorem pending_of_stateAt?_start {body : Body} {entry state : FrameState} {position : Nat}
    (at_ : (start body entry).stateAt? position = some state) :
    state = entry ∧ position ∈ (start body entry).pending := by
  rw [stateAt?, start, Array.getElem?_setIfInBounds] at at_
  split at at_
  · next first =>
    subst first
    split at at_
    · next inside =>
      cases at_
      rw [Array.size_replicate] at inside
      rw [start, if_neg (by omega)]
      exact ⟨rfl, List.mem_singleton.2 rfl⟩
    · cases at_
  · rw [Array.getElem?_replicate] at at_
    split at at_ <;> cases at_

theorem consistent_start (entry : FrameState) :
    Consistent context table code (start (Body.ofCode code) entry) := by
  refine ⟨?_, fun position idle placed state found at_ => ?_⟩
  · simp [start]
  · exact absurd (pending_of_stateAt?_start at_).2 idle

end Runs

end Flow

/-- The states that an analysis found: the first instruction takes the state on entry to the method,
and every state is executed to one that is below the states behind its instruction. -/
structure PostFixpoint (table : String → TypeMetadata) (owner : String) (code : Code)
    (entry : FrameState) (flow : Flow) : Prop where
  first : code.instructions ≠ [] →
    ∃ recorded, flow.stateAt? 0 = some recorded ∧ StateBelow table entry recorded
  settled : ∀ position, Flow.Settled table (Body.ofCode code) owner flow position

theorem gives_analyze (context : FrameContext) (table : String → TypeMetadata) (member : Member)
    (code : Code) (steps : Nat) :
    Flow.Gives context.hierarchy table (fun _ => True) (code.analyze context member steps) fun (entry, flow) =>
      FrameState.onEntry context.owner member = .ok entry ∧
        PostFixpoint table context.owner code entry flow := by
  unfold Code.analyze
  cases known : FrameState.onEntry context.owner member with
  | error fault => exact .fail trivial
  | ok entry =>
    refine .bind (Flow.gives_run steps (Flow.consistent_start entry)) ?_
    rintro flow ⟨grows, settled⟩
    refine .pure ⟨rfl, ⟨fun nonempty => grows 0 entry ?_, settled⟩⟩
    have inside : 0 < (Array.replicate (Body.ofCode code).instructions.size
        (none : Option FrameState)).size := by
      rw [Array.size_replicate]
      exact List.length_pos_of_ne_nil nonempty
    rw [Flow.stateAt?, Flow.start, Array.getElem?_setIfInBounds_self_of_lt inside, Option.join_some]

theorem Code.onEntry_of_analyze {context : FrameContext} {member : Member} {code : Code}
    {steps : Nat} {cache after : MetadataCache} {entry : FrameState} {flow : Flow}
    (ended : code.analyze context member steps cache = (.ok (entry, flow), after)) :
    FrameState.onEntry context.owner member = .ok entry := by
  have result := (gives_analyze context _ member code steps cache rfl).1
  rw [ExceptT.run, ended] at result
  exact result.1

/-- Whatever the classes around a body declare, the states of an analysis that ends are a
post-fixpoint, in the order that the declarations generate. -/
theorem Code.analyze_postFixpoint {context : FrameContext} {member : Member} {code : Code}
    {steps : Nat} {cache after : MetadataCache} {entry : FrameState} {flow : Flow}
    (ended : code.analyze context member steps cache = (.ok (entry, flow), after)) :
    FrameState.onEntry context.owner member = .ok entry ∧
      PostFixpoint (context.hierarchy.view cache) context.owner code entry flow := by
  obtain ⟨result, -⟩ := gives_analyze context _ member code steps cache rfl
  have done : ((code.analyze context member steps).run cache).1 = .ok (entry, flow) :=
    congrArg Prod.fst ended
  rw [done] at result
  exact result

/-- A value is cast in a loop, inside of a handler for all that is thrown. -/
def loopBody : Code where
  maxStack := 1
  maxLocals := 1
  instructions := [⟨0, .simple 0x01⟩, ⟨1, .simple 0x4B⟩, ⟨2, .simple 0x2A⟩,
    ⟨3, .type Opcode.checkcast "java/lang/String"⟩, ⟨6, .simple 0x4B⟩, ⟨7, .jump Opcode.goto 2⟩,
    ⟨10, .simple 0xBF⟩]
  length := 11
  handlers := [⟨0, 10, 10, none⟩]
  attributes := []

theorem loopBody_postFixpoint : ∃ flow after,
    loopBody.analyze ⟨⟨.empty, none⟩, "Main"⟩ ⟨0x0008, "run", "()V", []⟩ 20 .empty =
      (.ok (⟨[], []⟩, flow), after) ∧
    PostFixpoint (Hierarchy.view ⟨.empty, none⟩ .empty) "Main" loopBody ⟨[], []⟩ flow := by
  have ended : ∃ flow after,
      loopBody.analyze ⟨⟨.empty, none⟩, "Main"⟩ ⟨0x0008, "run", "()V", []⟩ 20 .empty =
        (.ok (⟨[], []⟩, flow), after) := ⟨_, _, rfl⟩
  obtain ⟨flow, after, ended⟩ := ended
  exact ⟨flow, after, ended, (Code.analyze_postFixpoint ended).2⟩

end ClassRenaming
