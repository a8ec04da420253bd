import ClassRenaming.Proofs.LiveDispatch
import ClassRenaming.Proofs.SameAnswers
import ClassRenaming.Proofs.TypesInFlows

/-!
Runs of the analysis on two bodies with the same reached instructions. Where each of these instructions
has a place in the second body, with the same entries of the exception table around it, the two runs
visit the same instructions in the same order and find the same states.
-/

namespace ClassRenaming

/-! Instructions by offset. -/

namespace Body

theorem isSome_foldl_setIfInBounds {pairs : List (Placed × Nat)} {table : Array (Option Nat)}
    {offset : Nat} (room : offset < table.size)
    (listed : (∃ pair ∈ pairs, pair.1.offset = offset) ∨ table[offset]?.join.isSome) :
    (pairs.foldl (fun table (pair : Placed × Nat) =>
      table.setIfInBounds pair.1.offset (.some pair.2)) table)[offset]?.join.isSome := by
  induction pairs generalizing table with
  | nil => simpa using listed
  | cons pair rest ih =>
    rw [List.foldl_cons]
    apply ih (by simpa using room)
    by_cases here : pair.1.offset = offset
    · rw [here, Array.getElem?_setIfInBounds_self_of_lt room]
      exact .inr rfl
    · rw [Array.getElem?_setIfInBounds_ne here]
      rcases listed with ⟨other, member, starts⟩ | old
      · rcases List.mem_cons.1 member with rfl | later
        · exact absurd starts here
        · exact .inl ⟨other, later, starts⟩
      · exact .inr old

theorem position?_ofCode {code : Code} (tiles : Tiles 0 code.instructions code.length)
    {position : Nat} {placed : Placed} (here : code.instructions[position]? = some placed) :
    (ofCode code).position? placed.offset = some position := by
  have room : placed.offset < (Array.replicate code.length (none : Option Nat)).size := by
    rw [Array.size_replicate]
    exact tiles.offset_lt (List.mem_of_getElem? here)
  have listed : (placed, position) ∈ code.instructions.zipIdx := List.mem_zipIdx_iff_getElem?.2 here
  have found : ((ofCode code).position? placed.offset).isSome :=
    isSome_foldl_setIfInBounds room (.inl ⟨_, listed, rfl⟩)
  obtain ⟨other, at_⟩ := Option.isSome_iff_exists.1 found
  obtain ⟨second, there, starts⟩ := Code.getElem?_of_position? at_
  rw [tiles.position_unique here there starts.symm]
  exact at_

end Body

/-! Computations that are repeated. -/

namespace Flow

/-- Whenever one computation comes to a result so does another, and the results go together, as long
as the answers are those of one table. -/
def Repeats {α β : Type} (hierarchy : Hierarchy) (table : String → TypeMetadata)
    (related : α → β → Prop) (action : Analysis α) (other : Analysis β) : Prop :=
  ∀ cache again value after, hierarchy.view cache = table → hierarchy.view again = table →
    action.run cache = (.ok value, after) →
      ∃ result last, other.run again = (.ok result, last) ∧ related value result ∧
        hierarchy.view after = table ∧ hierarchy.view last = table

namespace Repeats

variable {α β γ δ : Type} {hierarchy : Hierarchy} {table : String → TypeMetadata}
  {related : α → β → Prop} {results : γ → δ → Prop} {action : Analysis α} {other : Analysis β}

theorem pure {a : α} {b : β} (both : related a b) :
    Repeats hierarchy table related (pure a) (pure b) := by
  intro cache again value after same also done
  cases done
  exact ⟨b, again, rfl, both, same, also⟩

theorem fail (offset : Nat) (fault : FrameFault) :
    Repeats hierarchy table related (Flow.fail offset fault) other := by
  intro cache again value after same also done
  cases done

theorem bind {next : α → Analysis γ} {others : β → Analysis δ}
    (first : Repeats hierarchy table related action other)
    (second : ∀ a b, related a b → Repeats hierarchy table results (next a) (others b)) :
    Repeats hierarchy table results (action >>= next) (other >>= others) := by
  intro cache again value after same also done
  obtain ⟨a, middle, here, there⟩ := ExceptT.run_bind_eq_ok.1 done
  obtain ⟨b, last, found, both, still, too⟩ := first cache again a middle same also here
  rw [ExceptT.run_bind_ok found]
  exact second a b both middle last value after still too there

theorem and_gives {fails : FrameFault → Prop} {good : α → Prop}
    (h : Repeats hierarchy table related action other)
    (also : Gives hierarchy table fails action good) :
    Repeats hierarchy table (fun a b => related a b ∧ good a) action other := by
  intro cache again value after same too done
  obtain ⟨result, last, found, both, views⟩ := h cache again value after same too done
  have known := (also cache same).1
  rw [done] at known
  exact ⟨result, last, found, ⟨both, known⟩, views⟩

theorem lift {question : Resolving α} (same : Determined hierarchy table question) :
    Repeats hierarchy table (fun a b => b = a) (liftM question) (liftM question) := by
  obtain ⟨answer, gives⟩ := same
  intro cache again value after first second done
  obtain ⟨here, still⟩ := gives cache first
  obtain ⟨there, too⟩ := gives again second
  cases done
  exact ⟨_, _, rfl, there.trans here.symm, still, too⟩

theorem foldlM {ι κ : Type} {f : ι → κ} {items : List ι} {step : α → ι → Analysis α}
    {others : β → κ → Analysis β}
    (each : ∀ item ∈ items, ∀ a b, related a b →
      Repeats hierarchy table related (step a item) (others b (f item)))
    {a : α} {b : β} (both : related a b) :
    Repeats hierarchy table related (items.foldlM step a) ((items.map f).foldlM others b) := by
  induction items generalizing a b with
  | nil => exact .pure both
  | cons item rest ih =>
    rw [List.forall_mem_cons] at each
    rw [List.map_cons, List.foldlM_cons, List.foldlM_cons]
    apply (each.1 a b both).bind
    intro a b both
    exact ih each.2 both

theorem mapM {ι : Type} {f : α → β} {good : α → Prop} {items : List ι} {step : ι → Analysis α}
    {others : ι → Analysis β}
    (each : ∀ item ∈ items,
      Repeats hierarchy table (fun a b => b = f a ∧ good a) (step item) (others item)) :
    Repeats hierarchy table (fun as bs => bs = as.map f ∧ ∀ a ∈ as, good a) (items.mapM step)
      (items.mapM others) := by
  induction items with
  | nil =>
    rw [List.mapM_nil, List.mapM_nil]
    exact .pure ⟨rfl, by simp⟩
  | cons item rest ih =>
    rw [List.forall_mem_cons] at each
    rw [List.mapM_cons, List.mapM_cons]
    apply each.1.bind
    intro a b first
    apply (ih each.2).bind
    intro as bs later
    obtain ⟨rfl, here⟩ := first
    obtain ⟨rfl, there⟩ := later
    exact .pure ⟨rfl, List.forall_mem_cons.2 ⟨here, there⟩⟩

end Repeats

end Flow

/-! Bodies with the same reached instructions. -/

/-- Every reached instruction of a body has a place in another one, in front of the place of the
instruction behind it, and the entries around it catch the same. -/
structure Code.PlacedIn (place : Nat → Nat) (code other : Code) : Prop where
  tiles : Tiles 0 code.instructions code.length
  others : Tiles 0 other.instructions other.length
  nonempty : code.instructions ≠ []
  first : place 0 = 0
  instruction : ∀ position placed, code.Reached position →
    code.instructions[position]? = some placed → other.instructions[place position]? = some placed
  next : ∀ position, code.Reached position → place (position + 1) = place position + 1
  dispatch : ∀ position placed, code.Reached position →
    code.instructions[position]? = some placed →
      Handler.dispatch other.handlers placed.offset = Handler.dispatch code.handlers placed.offset

namespace Code

variable {place : Nat → Nat} {code other : Code}

theorem Reached.exists_instruction (nonempty : code.instructions ≠ []) {position : Nat}
    (reached : code.Reached position) : ∃ placed, code.instructions[position]? = some placed := by
  rcases Relation.ReflTransGen.cases_tail reached with first | ⟨source, -, leads⟩
  · obtain ⟨placed, rest, here⟩ := List.exists_cons_of_ne_nil nonempty
    exact ⟨placed, by rw [first, here]; rfl⟩
  · cases leads with
    | jump _ there _ => exact ⟨_, there⟩
    | fall _ there _ _ => exact ⟨_, there⟩
    | «catch» _ there _ _ _ _ => exact ⟨_, there⟩

namespace PlacedIn

variable {position next : Nat} {placed : Placed}

theorem injective (within : code.PlacedIn place other) (reached : code.Reached position)
    (also : code.Reached next) (same : place position = place next) : position = next := by
  obtain ⟨placed, here⟩ := reached.exists_instruction within.nonempty
  obtain ⟨second, there⟩ := also.exists_instruction within.nonempty
  have first := within.instruction position placed reached here
  rw [same, within.instruction next second also there] at first
  cases first
  exact within.tiles.position_unique here there rfl

theorem lt_length (within : code.PlacedIn place other) (reached : code.Reached position) :
    position < code.instructions.length ∧ place position < other.instructions.length := by
  obtain ⟨placed, here⟩ := reached.exists_instruction within.nonempty
  have there := within.instruction position placed reached here
  exact ⟨(List.getElem?_eq_some_iff.1 here).1, (List.getElem?_eq_some_iff.1 there).1⟩

theorem position? (within : code.PlacedIn place other) (reached : code.Reached position)
    {offset : Nat} (found : (Body.ofCode code).position? offset = some position) :
    (Body.ofCode other).position? offset = some (place position) := by
  obtain ⟨placed, here, rfl⟩ := getElem?_of_position? found
  exact Body.position?_ofCode within.others (within.instruction position placed reached here)

theorem made? (within : code.PlacedIn place other) (reached : code.Reached position)
    (here : code.instructions[position]? = some placed) :
    (Body.ofCode other).made? placed.offset = (Body.ofCode code).made? placed.offset := by
  have found := Body.position?_ofCode within.tiles here
  have there := within.instruction position placed reached here
  unfold Body.made?
  rw [within.position? reached found, found]
  simp only [Option.bind_eq_bind, Option.bind_some, getElem?_ofCode, here, there]

end PlacedIn

end Code

/-! Values that are still to be constructed. -/

def VerificationType.Begun (code : Code) : VerificationType → Prop
  | .uninitialized offset => ∃ position placed, code.Reached position ∧
    code.instructions[position]? = some placed ∧ placed.offset = offset
  | _ => True

namespace VerificationType

variable {code : Code} {type : VerificationType}

theorem Constructed.begun (constructed : type.Constructed) : type.Begun code := by
  cases type with
  | uninitialized offset => cases constructed
  | _ => trivial

theorem ensures_mergeTypes_constructed {hierarchy : Hierarchy} {table : String → TypeMetadata}
    {good : VerificationType → Prop} (constructed : ∀ type : VerificationType, type.Constructed → good type)
    (left right : VerificationType) (first : good left) :
    Ensures hierarchy table (hierarchy.mergeTypes left right) good := by
  unfold Hierarchy.mergeTypes
  split
  · exact .pure first
  · split
    · exact .pure (constructed _ trivial)
    · exact .pure (constructed _ trivial)
    · exact .bind (determined_mergeReferences _ _).choose_spec fun _ _ =>
        .pure (constructed _ trivial)
    · exact .pure (constructed _ trivial)

end VerificationType

namespace FrameState.Each

open VerificationType

variable {good : VerificationType → Prop} {state after : FrameState} {owner : String}
  {placed : Placed} {made others : Nat → Option String}

section Constructed

variable (constructed : ∀ type : VerificationType, type.Constructed → good type)
include constructed

theorem execute_constructed (each : state.Each good)
    (new : ∀ name, placed.instruction = .type Opcode.new name → good (.uninitialized placed.offset))
    (done : state.execute owner made placed = .ok after) : after.Each good := by
  apply each.execute ?_ (fun type makes => ?_) done
  · exact fun array type _ found => constructed _ (constructed_element found)
  · cases makes with
    | new here => exact new _ here
    | plain plain => exact constructed _ plain.constructed
    | constant _ known => exact constructed _ (constructed_ofConstant known)
    | array => exact constructed _ (constructed_arrayOf _)
    | field | call | dynamic => exact constructed _ (constructed_ofFieldType _)
    | baseArray _ known => exact constructed _ (constructed_baseArray known)
    | cast | multiArray | this | constructed => exact constructed _ trivial

theorem onEntry_constructed (this : good .uninitializedThis) {member : Member} {entry : FrameState}
    (done : FrameState.onEntry owner member = .ok entry) : entry.Each good := by
  apply FrameState.Each.onEntry (constructed _ trivial) ?receiver ?parameters done
  case receiver =>
    unfold FrameState.receiver
    split
    · exact this
    · exact constructed _ trivial
  case parameters =>
    intro type _ parameter _
    exact constructed _ (constructed_ofFieldType parameter)

end Constructed

theorem takeReceiver_congr (each : state.Each good)
    (same : ∀ offset, good (.uninitialized offset) → others offset = made offset)
    (constructor : Bool) :
    state.takeReceiver owner others constructor = state.takeReceiver owner made constructor := by
  unfold FrameState.takeReceiver
  apply Except.bind_congr_ok
  intro found popped
  obtain ⟨receiver, rest⟩ := found
  obtain ⟨here, -⟩ := each.pop popped
  have class_same : constructed? owner others receiver = constructed? owner made receiver := by
    cases receiver with
    | uninitialized offset => simp only [constructed?, same offset here]
    | _ => rfl
  dsimp only
  rw [class_same]

theorem execute_congr (each : state.Each good)
    (same : ∀ offset, good (.uninitialized offset) → others offset = made offset) :
    state.execute owner others placed = state.execute owner made placed := by
  obtain ⟨offset, instruction⟩ := placed
  cases instruction with
  | method opcode member isInterface =>
    apply Except.bind_congr_ok
    intro type _
    apply Except.bind_congr_ok
    intro middle dropped
    have fewer := each.drop dropped
    dsimp only
    rw [fewer.takeReceiver_congr same]
  | _ => rfl

end FrameState.Each

namespace VerificationType.Begun

variable {code : Code} {placed : Placed} {state after : FrameState} {owner : String}
  {made : Nat → Option String} {position : Nat}

theorem execute (reached : code.Reached position) (here : code.instructions[position]? = some placed)
    (each : state.Each (Begun code)) (done : state.execute owner made placed = .ok after) :
    after.Each (Begun code) :=
  each.execute_constructed (fun _ => Constructed.begun)
    (fun _ _ => ⟨position, placed, reached, here, rfl⟩) done

theorem onEntry {member : Member} {entry : FrameState}
    (done : FrameState.onEntry owner member = .ok entry) : entry.Each (Begun code) :=
  FrameState.Each.onEntry_constructed (fun _ => Constructed.begun) trivial done

end VerificationType.Begun

namespace Flow

theorem stateAt?_start {code : Code} (positive : 0 < code.instructions.length) (entry : FrameState)
    (position : Nat) : (start (Body.ofCode code) entry).stateAt? position =
      if position = 0 then .some entry else none := by
  have size : 0 < (Array.replicate (Body.ofCode code).instructions.size
      (none : Option FrameState)).size := by
    simpa [Body.ofCode] using positive
  rw [stateAt?, start]
  by_cases first : position = 0
  · rw [first, Array.getElem?_setIfInBounds_self_of_lt size, if_pos rfl, Option.join_some]
  · rw [Array.getElem?_setIfInBounds_ne (Ne.symm first), if_neg first, Array.getElem?_replicate]
    split <;> rfl

theorem pending_start {code : Code} (positive : 0 < code.instructions.length) (entry : FrameState) :
    (start (Body.ofCode code) entry).pending = [0] := by
  rw [start]
  exact if_neg (by simpa [Body.ofCode] using Nat.ne_of_gt positive)

/-- The states of one flow are in the places of a second one, with the same instructions pending. -/
structure Tracks (place : Nat → Nat) (code other : Code) (flow again : Flow) : Prop where
  size : flow.states.size = code.instructions.length
  room : again.states.size = other.instructions.length
  states : ∀ position, code.Reached position →
    again.stateAt? (place position) = flow.stateAt? position
  only : ∀ position, again.stateAt? position ≠ none →
    ∃ old, code.Reached old ∧ place old = position
  waiting : ∀ position ∈ flow.pending, code.Reached position
  pending : again.pending = flow.pending.map place
  maxStack : again.maxStack = flow.maxStack
  maxLocals : again.maxLocals = flow.maxLocals

namespace Tracks

variable {place : Nat → Nat} {code other : Code} {flow again : Flow} {position : Nat}

theorem record (tracks : Tracks place code other flow again) (within : code.PlacedIn place other)
    (reached : code.Reached position) (state : FrameState) :
    Tracks place code other (flow.record position state) (again.record (place position) state) := by
  obtain ⟨inside, room⟩ := within.lt_length reached
  have here : position < flow.states.size := by rwa [tracks.size]
  have there : place position < again.states.size := by rwa [tracks.room]
  constructor
  case size => simpa [Flow.record] using tracks.size
  case room => simpa [Flow.record] using tracks.room
  case states =>
    intro next also
    rw [stateAt?_record there, stateAt?_record here, tracks.states next also]
    by_cases same : next = position
    · rw [same, if_pos rfl, if_pos rfl]
    · have apart : ¬ place next = place position := fun equal =>
        same (within.injective also reached equal)
      rw [if_neg same, if_neg apart]
  case only =>
    intro next known
    rw [stateAt?_record there] at known
    split at known
    · next same => exact ⟨position, reached, same.symm⟩
    · exact tracks.only next known
  case waiting => exact tracks.waiting
  case pending => exact tracks.pending
  case maxStack => exact tracks.maxStack
  case maxLocals => exact tracks.maxLocals

theorem mark (tracks : Tracks place code other flow again) (within : code.PlacedIn place other)
    (reached : code.Reached position) :
    Tracks place code other (flow.mark position) (again.mark (place position)) := by
  have listed : place position ∈ again.pending ↔ position ∈ flow.pending := by
    rw [tracks.pending, List.mem_map]
    constructor
    · rintro ⟨next, member, same⟩
      rwa [← within.injective (tracks.waiting next member) reached same]
    · intro member
      exact ⟨position, member, rfl⟩
  unfold Flow.mark
  by_cases member : position ∈ flow.pending
  · rw [if_pos member, if_pos (listed.2 member)]
    exact tracks
  · rw [if_neg member, if_neg (mt listed.1 member)]
    have waiting := List.forall_mem_cons.2 ⟨reached, tracks.waiting⟩
    have pending : place position :: again.pending = (position :: flow.pending).map place := by
      rw [tracks.pending, List.map_cons]
    exact { tracks with waiting, pending }

theorem see (tracks : Tracks place code other flow again) (stack locals : Nat) :
    Tracks place code other (flow.see stack locals) (again.see stack locals) := by
  have maxStack : max again.maxStack stack = max flow.maxStack stack := by rw [tracks.maxStack]
  have maxLocals : max again.maxLocals locals = max flow.maxLocals locals := by
    rw [tracks.maxLocals]
  exact { tracks with maxStack, maxLocals }

theorem take (tracks : Tracks place code other flow again) {rest : List Nat}
    (pending : flow.pending = position :: rest) :
    Tracks place code other { flow with pending := rest }
      { again with pending := rest.map place } := by
  have waiting := tracks.waiting
  rw [pending, List.forall_mem_cons] at waiting
  exact { tracks with waiting := waiting.2, pending := rfl }

theorem start (within : code.PlacedIn place other) (entry : FrameState) :
    Tracks place code other (Flow.start (Body.ofCode code) entry)
      (Flow.start (Body.ofCode other) entry) := by
  obtain ⟨positive, room⟩ := within.lt_length .refl
  rw [within.first] at room
  constructor
  case size => simp [Flow.start, Body.ofCode]
  case room => simp [Flow.start, Body.ofCode]
  case states =>
    intro position reached
    rw [stateAt?_start room, stateAt?_start positive]
    by_cases first : position = 0
    · rw [first, within.first]
    · have apart : ¬ place position = 0 := fun equal =>
        first (within.injective reached .refl (equal.trans within.first.symm))
      rw [if_neg first, if_neg apart]
  case only =>
    intro position known
    rw [stateAt?_start room] at known
    split at known
    · next first => exact ⟨0, .refl, within.first.trans first.symm⟩
    · exact absurd rfl known
  case waiting =>
    intro position member
    rw [pending_start positive, List.mem_singleton] at member
    rw [member]
    exact .refl
  case pending => rw [pending_start positive, pending_start room, List.map_singleton, within.first]
  case maxStack => rfl
  case maxLocals => rfl

end Tracks

section Steps

variable {hierarchy : Hierarchy} {context : FrameContext} {table : String → TypeMetadata}
  {place : Nat → Nat} {code other : Code} {flow again : Flow} {position : Nat} {placed : Placed}
  {entry exit : FrameState}

theorem repeats_arrive (within : code.PlacedIn place other)
    (tracks : Tracks place code other flow again) (reached : code.Reached position) (offset : Nat)
    (incoming : FrameState) :
    Repeats hierarchy table (Tracks place code other) (flow.arrive hierarchy offset incoming position)
      (again.arrive hierarchy offset incoming (place position)) := by
  unfold arrive
  have same : again.states[place position]?.join = flow.states[position]?.join :=
    tracks.states position reached
  rw [same]
  cases flow.states[position]?.join with
  | none => exact .pure ((tracks.record within reached incoming).mark within reached)
  | some recorded =>
    dsimp only
    split
    · exact .fail offset _
    · apply (Repeats.lift (determined_mergeStates recorded incoming)).bind
      intro merged result equal
      rw [equal]
      apply Repeats.pure
      split
      · exact tracks.record within reached merged
      · exact (tracks.record within reached merged).mark within reached

theorem repeats_arrivals (within : code.PlacedIn place other) {targets : List Nat}
    (reached : ∀ target ∈ targets, code.Reached target)
    (tracks : Tracks place code other flow again) (offset : Nat) (incoming : FrameState) :
    Repeats hierarchy table (Tracks place code other)
      (targets.foldlM (fun flow target => flow.arrive hierarchy offset incoming target) flow)
      ((targets.map place).foldlM (fun flow target => flow.arrive hierarchy offset incoming target)
        again) := by
  apply Repeats.foldlM _ tracks
  intro target member flow again tracks
  exact repeats_arrive within tracks (reached target member) offset incoming

theorem repeats_position? (within : code.PlacedIn place other) (reached : code.Reached position)
    (here : code.instructions[position]? = some placed) {target : Nat}
    (jumps : target ∈ placed.instruction.branchTargets) :
    Repeats hierarchy table (fun found others => others = place found ∧ code.Reached found)
      (match (Body.ofCode code).position? target with
        | some found => pure found
        | none => fail placed.offset (.noInstruction target))
      (match (Body.ofCode other).position? target with
        | some found => pure found
        | none => fail placed.offset (.noInstruction target)) := by
  cases found : (Body.ofCode code).position? target with
  | none => exact .fail _ _
  | some next =>
    obtain ⟨second, there, rfl⟩ := Code.getElem?_of_position? found
    have onwards : code.Reached next := reached.tail (.jump here there jumps)
    rw [within.position? onwards found]
    exact .pure ⟨rfl, onwards⟩

theorem repeats_successors (within : code.PlacedIn place other) (reached : code.Reached position)
    (here : code.instructions[position]? = some placed) :
    Repeats hierarchy table
      (fun targets others => others = targets.map place ∧ ∀ target ∈ targets, code.Reached target)
      (successors (Body.ofCode code) position placed)
      (successors (Body.ofCode other) (place position) placed) := by
  unfold successors
  apply (Repeats.mapM fun target jumps => repeats_position? within reached here jumps).bind
  intro targets others both
  obtain ⟨rfl, onwards⟩ := both
  split
  · exact .pure ⟨rfl, onwards⟩
  · next goes =>
    split
    · next room =>
      have there := List.getElem?_eq_getElem (l := code.instructions)
        (by simpa [Body.ofCode] using room)
      have next : code.Reached (position + 1) := reached.tail (.fall here there goes rfl)
      have behind := within.next position reached
      have inside : place position + 1 < (Body.ofCode other).instructions.size := by
        rw [← behind]
        simpa [Body.ofCode] using (within.lt_length next).2
      rw [if_pos inside]
      apply Repeats.pure
      constructor
      · rw [List.map_append, List.map_singleton, behind]
      · exact List.forall_mem_append.2 ⟨onwards, List.forall_mem_singleton.2 next⟩
    · exact .fail _ _

def catchAt (hierarchy : Hierarchy) (body : Body) (offset : Nat) (entry exit : FrameState)
    (flow : Flow) (caught : Nat × Option String) : Analysis Flow :=
  catchIn hierarchy body offset entry exit flow ⟨offset, offset + 1, caught.1, caught.2⟩

theorem catchIn_of_covers {handler : Handler} {offset : Nat} (covers : handler.Covers offset)
    (body : Body) (flow : Flow) :
    catchIn hierarchy body offset entry exit flow handler =
      catchAt hierarchy body offset entry exit flow (handler.target, handler.catchType) := by
  obtain ⟨start, stop⟩ := covers
  have inside : ¬ (offset < handler.start ∨ handler.stop ≤ offset) := by omega
  have here : ¬ (offset < offset ∨ offset + 1 ≤ offset) := by omega
  rw [catchAt, catchIn, catchIn, if_neg inside, if_neg here]

theorem catchIn_of_not_covers {handler : Handler} {offset : Nat} (outside : ¬ handler.Covers offset)
    (body : Body) (flow : Flow) :
    catchIn hierarchy body offset entry exit flow handler = pure flow := by
  have beside : offset < handler.start ∨ handler.stop ≤ offset := by
    simp only [Handler.Covers] at outside
    omega
  rw [catchIn, if_pos beside]

theorem foldlM_catchIn (body : Body) (offset : Nat) (flow : Flow) (handlers : List Handler) :
    handlers.foldlM (catchIn hierarchy body offset entry exit) flow =
      (Handler.dispatch handlers offset).foldlM (catchAt hierarchy body offset entry exit) flow := by
  induction handlers generalizing flow with
  | nil => rfl
  | cons handler rest ih =>
    rw [List.foldlM_cons, Handler.dispatch_cons]
    by_cases covers : handler.Covers offset
    · rw [Handler.dispatch_of_covers covers, catchIn_of_covers covers, List.singleton_append,
        List.foldlM_cons]
      simp only [ih]
    · rw [Handler.dispatch_of_not_covers covers, catchIn_of_not_covers covers, pure_bind, ih]
      rfl

theorem repeats_catchAt (within : code.PlacedIn place other) (reached : code.Reached position)
    (here : code.instructions[position]? = some placed) {caught : Nat × Option String}
    (tried : caught ∈ Handler.dispatch code.handlers placed.offset)
    (tracks : Tracks place code other flow again) :
    Repeats hierarchy table (Tracks place code other)
      (catchAt hierarchy (Body.ofCode code) placed.offset entry exit flow caught)
      (catchAt hierarchy (Body.ofCode other) placed.offset entry exit again caught) := by
  unfold catchAt catchIn
  dsimp only
  split
  · exact .pure tracks
  · cases found : (Body.ofCode code).position? caught.1 with
    | none => exact .fail _ _
    | some next =>
      obtain ⟨handler, listed, rfl⟩ := List.mem_map.1 tried
      obtain ⟨member, covers⟩ := List.mem_filter.1 listed
      obtain ⟨start, stop⟩ := of_decide_eq_true covers
      obtain ⟨second, there, catches⟩ := Code.getElem?_of_position? found
      have onwards : code.Reached next :=
        reached.tail (.catch here there member start stop catches.symm)
      rw [within.position? onwards found]
      apply (repeats_arrive within (tracks.see 1 0) onwards _ _).bind
      intro flow again tracks
      exact repeats_arrive within tracks onwards _ _

theorem repeats_visit (within : code.PlacedIn place other)
    (tracks : Tracks place code other flow again) (each : flow.Each (VerificationType.Begun code))
    (reached : code.Reached position) :
    Repeats context.hierarchy table (Tracks place code other)
      (visit context (Body.ofCode code) position flow)
      (visit context (Body.ofCode other) (place position) again) := by
  obtain ⟨placed, here⟩ := reached.exists_instruction within.nonempty
  have there := within.instruction position placed reached here
  have same : again.states[place position]?.join = flow.states[position]?.join :=
    tracks.states position reached
  have dispatch := within.dispatch position placed reached here
  unfold visit
  rw [Code.getElem?_ofCode, Code.getElem?_ofCode, here, there, same]
  cases known : flow.states[position]?.join with
  | none => exact .pure tracks
  | some entry =>
    have made (offset : Nat) (begun : (VerificationType.uninitialized offset).Begun code) :
        (Body.ofCode other).made? offset = (Body.ofCode code).made? offset := by
      obtain ⟨source, new, from_, at_, rfl⟩ := begun
      exact within.made? from_ at_
    dsimp only
    rw [(each position entry known).execute_congr made]
    cases entry.execute context.owner (Body.ofCode code).made? placed with
    | error fault => exact .fail _ _
    | ok exit =>
      dsimp only
      apply (repeats_successors within reached here).bind
      intro targets others both
      obtain ⟨rfl, onwards⟩ := both
      apply (repeats_arrivals within onwards (tracks.see _ _) _ _).bind
      intro flow again tracks
      have handlers : (Body.ofCode other).handlers = other.handlers := rfl
      rw [foldlM_catchIn, foldlM_catchIn, handlers, dispatch]
      have tried (caught : Nat × Option String)
          (member : caught ∈ Handler.dispatch code.handlers placed.offset) (flow again : Flow)
          (tracks : Tracks place code other flow again) :
          Repeats context.hierarchy table (Tracks place code other)
            (catchAt context.hierarchy (Body.ofCode code) placed.offset entry exit flow caught)
            (catchAt context.hierarchy (Body.ofCode other) placed.offset entry exit again (id caught)) :=
        repeats_catchAt within reached here member tracks
      have told := Repeats.foldlM tried tracks
      rwa [List.map_id] at told

theorem repeats_run (within : code.PlacedIn place other)
    (tracks : Tracks place code other flow again) (each : flow.Each (VerificationType.Begun code))
    (steps : Nat) :
    Repeats context.hierarchy table (Tracks place code other)
      (run context (Body.ofCode code) steps flow) (run context (Body.ofCode other) steps again) := by
  have idle {flow again : Flow} (tracks : Tracks place code other flow again) :
      again.pending.isEmpty = flow.pending.isEmpty := by
    rw [tracks.pending, List.isEmpty_map]
  induction steps generalizing flow again with
  | zero =>
    rw [run, run, idle tracks]
    split
    · exact .pure tracks
    · exact .fail _ _
  | succ steps ih =>
    rw [run, run]
    cases pending : flow.pending with
    | nil =>
      have idle : again.pending = [] := by rw [tracks.pending, pending, List.map_nil]
      rw [idle]
      exact .pure tracks
    | cons position rest =>
      have moved : again.pending = place position :: rest.map place := by
        rw [tracks.pending, pending, List.map_cons]
      have reached : code.Reached position := tracks.waiting position (by simp [pending])
      have taken : ({ flow with pending := rest } : Flow).Each (VerificationType.Begun code) :=
        each.of_states rfl
      have visited : Repeats context.hierarchy table (Tracks place code other)
          (visit context (Body.ofCode code) position { flow with pending := rest })
          (visit context (Body.ofCode other) (place position)
            { again with pending := rest.map place }) :=
        repeats_visit within (tracks.take pending) taken reached
      have begun : Gives context.hierarchy table (fun _ => True)
          (visit context (Body.ofCode code) position { flow with pending := rest })
          (Each (VerificationType.Begun code)) := by
        apply gives_visit_each trivial ?merges taken ?exits ?caught
        case merges =>
          intro left right first _
          exact VerificationType.ensures_mergeTypes_constructed
            (fun _ => VerificationType.Constructed.begun) left right first
        case exits =>
          intro placed entry exit here before done
          exact VerificationType.Begun.execute reached here before done
        case caught =>
          intro handler _
          trivial
      rw [moved]
      apply (visited.and_gives begun).bind
      intro flow again both
      exact ih both.1 both.2

end Steps

end Flow

theorem Code.repeats_analyze {place : Nat → Nat} {code other : Code}
    (within : code.PlacedIn place other) (context : FrameContext) (table : String → TypeMetadata)
    (member : Member) (steps : Nat) :
    Flow.Repeats context.hierarchy table
      (fun found again => again.1 = found.1 ∧ Flow.Tracks place code other found.2 again.2)
      (code.analyze context member steps) (other.analyze context member steps) := by
  unfold analyze
  cases known : FrameState.onEntry context.owner member with
  | error fault => exact .fail _ _
  | ok entry =>
    have first : entry.Each (VerificationType.Begun code) := VerificationType.Begun.onEntry known
    have begun := Flow.Each.start (Body.ofCode code) first
    apply (Flow.repeats_run within (.start within entry) begun steps).bind
    intro flow again tracks
    exact .pure ⟨rfl, tracks⟩

end ClassRenaming
