import ClassRenaming.Proofs.PlacedRuns
import ClassRenaming.Proofs.ProcessingOrder
import ClassRenaming.Proofs.ProperRenaming

/-!
Faults that would be the program's own. An analysis looks up instructions by the offsets that a body
names, and the `new` instructions of values that are still to be constructed. In a body as one is
read both are always found: branch targets and handlers are starts of instructions, and a value names
the `new` instruction that made it, which is still there. The frames that come of it are at starts of
instructions, which stay in order in every layout, so no table of them is refused for its order.
-/

namespace ClassRenaming

open FrameState

/-- A fault which says that nothing is where something was looked for. -/
def FrameFault.Misplaced : FrameFault → Prop
  | .noInstruction _ | .notMade _ => True
  | _ => False

namespace FrameState

def Sound {α : Type} (outcome : Outcome α) : Prop :=
  ∀ fault, outcome = .error fault → ¬ fault.Misplaced

namespace Sound

variable {α β : Type} {state : FrameState}

theorem ok (value : α) : Sound (.ok value) := nofun

theorem error {fault : FrameFault} (other : ¬ fault.Misplaced) : Sound (.error fault : Outcome α) := by
  rintro _ ⟨⟩
  exact other

theorem bind {outcome : Outcome α} {next : α → Outcome β} (first : Sound outcome)
    (second : ∀ value, outcome = .ok value → Sound (next value)) : Sound (outcome >>= next) := by
  cases outcome with
  | error fault => exact error (first fault rfl)
  | ok value => exact second value rfl

theorem map {outcome : Outcome α} (first : Sound outcome) (f : α → β) : Sound (f <$> outcome) := by
  cases outcome with
  | error fault => exact error (first fault rfl)
  | ok value => exact ok _

theorem liftDescriptor (read : Except FormatError α) : Sound (ClassRenaming.liftDescriptor read) := by
  cases read with
  | ok value => exact ok value
  | error cause => exact error id

theorem pop (state : FrameState) : Sound state.pop := by
  unfold FrameState.pop
  split
  · exact ok _
  · exact error id

theorem drop (count : Nat) (state : FrameState) : Sound (state.drop count) := by
  unfold FrameState.drop
  split
  · exact error id
  · exact ok _

theorem replace (count : Nat) (result : VerificationType) (state : FrameState) :
    Sound (state.replace count result) := (drop count state).map _

theorem rearrange (depth : Nat) (order : List Nat) (state : FrameState) :
    Sound (state.rearrange depth order) := by
  unfold FrameState.rearrange
  split
  · exact error id
  · exact ok _

theorem store (kind index : Nat) (state : FrameState) : Sound (state.store kind index) := by
  unfold FrameState.store
  split
  · exact (drop _ state).map _
  · exact (pop state).bind fun _ _ => ok _

theorem element (array : VerificationType) : Sound array.element := by
  unfold VerificationType.element
  split
  · exact ok _
  · split
    · exact (liftDescriptor _).map _
    · exact error id
  · exact error id

theorem ofConstant (constant : Constant) : Sound (VerificationType.ofConstant constant) := by
  cases constant with
  | dynamic name descriptor bootstrap => exact (liftDescriptor _).map _
  | _ => exact ok _

theorem baseArray (code : UInt8) : Sound (VerificationType.baseArray code) := by
  unfold VerificationType.baseArray
  split <;> first | exact ok _ | exact error id

theorem apply (state : FrameState) (effect : Effect) : Sound (state.apply effect) := by
  cases effect with
  | replace count result =>
    cases result with
    | none => exact drop count state
    | some type => exact replace count type state
  | load kind index => exact ok _
  | store kind index => exact store kind index state
  | rearrange depth order => exact rearrange depth order state
  | element =>
    refine (drop 1 state).bind fun middle _ => ?_
    exact (pop middle).bind fun found _ => (element found.1).bind fun _ _ => ok _

variable {good : VerificationType → Prop} {owner : String} {made : Nat → Option String}
  (known : ∀ offset, good (.uninitialized offset) → made offset ≠ none)
include known

theorem takeReceiver (each : state.Each good) (constructor : Bool) :
    Sound (state.takeReceiver owner made constructor) := by
  refine (pop state).bind fun found popped => ?_
  obtain ⟨receiver, rest⟩ := found
  obtain ⟨here, -⟩ := each.pop popped
  cases constructor with
  | false => exact ok _
  | true =>
    have whose : Sound (constructed? owner made receiver) := by
      unfold constructed?
      split
      · exact ok _
      · next offset =>
        obtain ⟨name, new⟩ := Option.ne_none_iff_exists'.1 (known offset here)
        rw [new]
        exact ok _
      · exact ok _
    refine whose.bind fun name _ => ?_
    cases name <;> exact ok _

theorem execute (each : state.Each good) (placed : Placed) :
    Sound (state.execute owner made placed) := by
  unfold FrameState.execute
  cases placed.instruction with
  | simple opcode =>
    dsimp only
    split
    · exact apply state _
    · exact error id
  | push => exact ok _
  | load opcode constant => exact (ofConstant constant).bind fun _ _ => ok _
  | «local» opcode index wide =>
    dsimp only
    split
    · exact ok _
    · split
      · exact store _ _ state
      · exact error id
  | increment => exact ok _
  | jump opcode target =>
    dsimp only
    split
    · exact ok _
    · split
      · exact error id
      · split <;> exact drop _ state
  | tableSwitch | lookupSwitch => exact drop _ state
  | type opcode name =>
    dsimp only
    split
    · exact ok _
    · split
      · exact replace _ _ state
      · split <;> exact replace _ _ state
  | field opcode member =>
    refine (liftDescriptor _).bind fun type _ => ?_
    split
    · exact ok _
    · split
      · exact drop _ state
      · split
        · exact replace _ _ state
        · exact drop _ state
  | method opcode member isInterface =>
    refine (liftDescriptor _).bind fun type _ => (drop _ state).bind fun middle dropped => ?_
    dsimp only
    split
    · exact ok _
    · exact (takeReceiver known (each.drop dropped) _).bind fun _ _ => ok _
  | invokeDynamic name descriptor bootstrap =>
    exact (liftDescriptor _).bind fun type _ => (drop _ state).bind fun _ _ => ok _
  | newArray code => exact (drop 1 state).bind fun _ _ => (baseArray code).bind fun _ _ => ok _
  | multiArray name dimensions => exact replace _ _ state

end Sound

end FrameState

def VerificationType.MadeIn (body : Body) : VerificationType → Prop
  | .uninitialized offset => body.made? offset ≠ none
  | _ => True

theorem VerificationType.Constructed.madeIn {type : VerificationType} (constructed : type.Constructed)
    (body : Body) : type.MadeIn body := by
  cases type with
  | uninitialized offset => cases constructed
  | _ => trivial

namespace Body

variable {code : Code}

theorem position?_ne_none (tiles : Tiles 0 code.instructions code.length) {offset : Nat}
    (start : Code.IsStart code.instructions offset) : (ofCode code).position? offset ≠ none := by
  obtain ⟨placed, member, rfl⟩ := start
  obtain ⟨position, here⟩ := List.mem_iff_getElem?.1 member
  rw [position?_ofCode tiles here]
  nofun

theorem made?_ne_none (tiles : Tiles 0 code.instructions code.length) {position : Nat}
    {placed : Placed} (here : code.instructions[position]? = some placed) {name : String}
    (new : placed.instruction = .type Opcode.new name) :
    (ofCode code).made? placed.offset ≠ none := by
  unfold made?
  rw [position?_ofCode tiles here, Option.bind_eq_bind, Option.bind_some, Code.getElem?_ofCode, here,
    Option.bind_eq_bind, Option.bind_some, new]
  nofun

end Body

/-! Steps of the analysis. -/

namespace Flow

theorem Gives.restrict {α : Type} {hierarchy : Hierarchy} {table : String → TypeMetadata}
    {fails : FrameFault → Prop} {action : Analysis α} {good : α → Prop}
    (results : Gives hierarchy table (fun _ => True) action good)
    (faults : Gives hierarchy table fails action fun _ => True) :
    Gives hierarchy table fails action good := by
  refine Ensures.mono (Ensures.and results faults) ?_
  rintro (error | value) both
  · exact both.2
  · exact both.1

abbrev Sound {α : Type} (hierarchy : Hierarchy) (table : String → TypeMetadata)
    (action : Analysis α) : Prop :=
  Gives hierarchy table (fun fault => ¬ fault.Misplaced) action fun _ => True

section Steps

variable {hierarchy : Hierarchy} {context : FrameContext} {table : String → TypeMetadata}
  {code : Code} {flow : Flow}

theorem sound_mapM {α β : Type} {items : List α} {step : α → Analysis β}
    (each : ∀ item ∈ items, Sound hierarchy table (step item)) :
    Sound hierarchy table (items.mapM step) := by
  have all : Gives hierarchy table (fun fault => ¬ fault.Misplaced) (items.mapM step) fun values =>
      (∀ item ∈ items, ∃ value ∈ values, True) ∧ ∀ value ∈ values, ∃ item ∈ items, True :=
    gives_mapM each
  exact all.mono fun _ _ => trivial

theorem sound_arrive (offset : Nat) (incoming : FrameState) (position : Nat) (flow : Flow) :
    Sound hierarchy table (flow.arrive hierarchy offset incoming position) := by
  refine .arrive (fun _ => trivial) (fun _ _ => id) fun recorded _ height => ?_
  exact (ensures_mergeStates height).mono fun merged _ => trivial

theorem sound_successors {depth : Nat} (proper : code.Proper depth) {placed : Placed}
    (member : placed ∈ code.instructions) (position : Nat) :
    Sound hierarchy table (successors (Body.ofCode code) position placed) := by
  unfold successors
  refine .bind (sound_mapM fun target jumps => ?_) fun targets _ => ?_
  · have found := Body.position?_ne_none proper.tiles (proper.targets placed member target jumps)
    obtain ⟨next, at_⟩ := Option.ne_none_iff_exists'.1 found
    rw [at_]
    exact .pure trivial
  · split
    · exact .pure trivial
    · split
      · exact .pure trivial
      · exact .fail id

theorem sound_catchIn {depth : Nat} (proper : code.Proper depth) {handler : Handler}
    (member : handler ∈ code.handlers) (offset : Nat) (entry exit : FrameState) (flow : Flow) :
    Sound hierarchy table (catchIn hierarchy (Body.ofCode code) offset entry exit flow handler) := by
  have found := Body.position?_ne_none proper.tiles (proper.handlers handler member).2.1
  refine .catchIn (fun _ => trivial) (fun missing => absurd missing found) fun target _ _ => ?_
  exact .bind (sound_arrive _ _ _ _) fun middle _ => sound_arrive _ _ _ _

theorem sound_visit {depth : Nat} (proper : code.Proper depth)
    (each : flow.Each (VerificationType.MadeIn (Body.ofCode code))) (position : Nat) :
    Sound context.hierarchy table (visit context (Body.ofCode code) position flow) := by
  have sound {placed : Placed} {entry : FrameState} (at_ : flow.stateAt? position = some entry) :
      FrameState.Sound (entry.execute context.owner (Body.ofCode code).made? placed) :=
    .execute (fun _ made => made) (each position entry at_) placed
  refine .visit (fun _ => trivial) (fun _ _ fault _ at_ failed => sound at_ fault failed)
    fun placed entry exit here _ _ => ?_
  rw [Code.getElem?_ofCode] at here
  have member := List.mem_of_getElem? here
  refine .bind (sound_successors proper member position) fun targets _ => ?_
  refine .bind (.foldlM (fun target _ flow _ => sound_arrive _ _ _ _) trivial) fun middle _ => ?_
  exact .foldlM (fun handler listed flow _ => sound_catchIn proper listed _ _ _ _) trivial

theorem gives_visit_madeIn {depth : Nat} (proper : code.Proper depth)
    (each : flow.Each (VerificationType.MadeIn (Body.ofCode code))) (position : Nat) :
    Gives context.hierarchy table (fun fault => ¬ fault.Misplaced)
      (visit context (Body.ofCode code) position flow)
      (Each (VerificationType.MadeIn (Body.ofCode code))) := by
  have constructed (type : VerificationType) (known : type.Constructed) :
      type.MadeIn (Body.ofCode code) := known.madeIn _
  refine .restrict (gives_visit_each trivial ?merges each ?exits ?caught)
    (sound_visit proper each position)
  case merges =>
    intro left right first _
    exact VerificationType.ensures_mergeTypes_constructed constructed left right first
  case exits =>
    intro placed entry exit here before done
    exact before.execute_constructed constructed
      (fun name new => Body.made?_ne_none proper.tiles here new) done
  case caught => exact fun handler _ => trivial

theorem sound_run {depth : Nat} (proper : code.Proper depth) (steps : Nat)
    (each : flow.Each (VerificationType.MadeIn (Body.ofCode code))) :
    Sound context.hierarchy table (run context (Body.ofCode code) steps flow) := by
  refine .mono (.run id (fun before position rest _ held => ?_) steps each) fun _ _ => trivial
  have taken : ({ before with pending := rest } : Flow).Each
      (VerificationType.MadeIn (Body.ofCode code)) := held.of_states rfl
  exact gives_visit_madeIn proper taken position

end Steps

end Flow

namespace Code

variable {depth : Nat} {code : Code}

theorem sound_analyze (proper : code.Proper depth) (context : FrameContext)
    (table : String → TypeMetadata) (member : Member) (steps : Nat) :
    Flow.Sound context.hierarchy table (code.analyze context member steps) := by
  unfold analyze
  split
  · next fault failed =>
    have sound : FrameState.Sound (FrameState.onEntry context.owner member) :=
      (FrameState.Sound.liftDescriptor _).bind fun _ _ => .ok _
    exact .fail (sound fault failed)
  · next entry known =>
    have each : entry.Each (VerificationType.MadeIn (Body.ofCode code)) :=
      FrameState.Each.onEntry_constructed (fun _ known => known.madeIn _) trivial known
    exact .bind (Flow.sound_run proper steps (.start _ each)) fun flow _ => .pure trivial

theorem sound_withFlow (code : Code) (major : UInt16) (entry : FrameState) (flow : Flow) :
    FrameState.Sound (code.withFlow major entry flow) := by
  have stack : (if (Span.deadRanges none (Span.ofCode code flow.states)).isEmpty then flow.maxStack
      else max flow.maxStack 1) = code.stackNeed flow := rfl
  have large : FrameState.Sound (.error .stackTooLarge : FrameState.Outcome Code) := .error id
  have many : FrameState.Sound (.error .localsTooLarge : FrameState.Outcome Code) := .error id
  unfold withFlow
  dsimp only
  rw [stack]
  split
  · exact large
  · split
    · exact many
    · exact .ok _

theorem sound_recompute (proper : code.Proper depth) (context : FrameContext)
    (table : String → TypeMetadata) (major : UInt16) (member : Member) :
    Flow.Sound context.hierarchy table (code.recompute context major member) := by
  refine .bind (sound_analyze proper context table member _) ?_
  rintro ⟨entry, flow⟩ -
  dsimp only
  split
  · next fault failed => exact .fail (sound_withFlow code major entry flow fault failed)
  · exact .pure trivial

end Code

theorem Flow.not_misplaced {α : Type} {hierarchy : Hierarchy} {action : Analysis α}
    (sound : ∀ table, Sound hierarchy table action) {cache : MetadataCache} {error : FrameError}
    (failed : (action.run cache).1 = .error error) : ¬ error.fault.Misplaced := by
  have outcome := (sound _ cache rfl).1
  rw [failed] at outcome
  exact outcome

/-! Tables of frames that are written. -/

def Interning.WellFormed {α : Type} (action : Interning α) : Prop :=
  ∀ pool part, action pool ≠ .error (.malformed part)

namespace Interning.WellFormed

variable {α β : Type}

theorem pure (value : α) : WellFormed (pure value) := fun _ _ failed => by cases failed

theorem lift {action : Except FormatError α} (fine : ∀ part, action ≠ .error (.malformed part)) :
    WellFormed (liftM action) := by
  intro pool part failed
  cases action with
  | error cause =>
    cases failed
    exact fine part rfl
  | ok value => cases failed

theorem throw {cause : FormatError} (other : ∀ part, cause ≠ .malformed part) :
    WellFormed (throw cause : Interning α) := by
  intro pool part failed
  cases failed
  exact other part rfl

theorem bind {action : Interning α} {next : α → Interning β} (first : WellFormed action)
    (second : ∀ value, WellFormed (next value)) : WellFormed (action >>= next) := by
  intro pool part failed
  cases done : action pool with
  | error cause =>
    have same : (action >>= next) pool = .error cause := by
      change action pool >>= _ = _
      rw [done]
      rfl
    rw [same] at failed
    cases failed
    exact first pool part done
  | ok found =>
    have same : (action >>= next) pool = next found.1 found.2 := by
      change action pool >>= _ = _
      rw [done]
      rfl
    rw [same] at failed
    exact second found.1 found.2 part failed

theorem map {action : Interning α} (first : WellFormed action) (f : α → β) :
    WellFormed (f <$> action) := by
  rw [← bind_pure_comp]
  exact first.bind fun value => pure _

theorem mapM {items : List α} {step : α → Interning β} (each : ∀ item ∈ items, WellFormed (step item)) :
    WellFormed (items.mapM step) := by
  induction items with
  | nil => exact pure _
  | cons item rest ih =>
    rw [List.forall_mem_cons] at each
    rw [List.mapM_cons]
    exact each.1.bind fun value => (ih each.2).bind fun values => pure _

theorem append (entry : PoolEntry) (pool : ConstantPool) (part : String) :
    pool.append entry ≠ .error (.malformed part) := by
  unfold ConstantPool.append
  dsimp only
  split <;> split <;> simp

theorem entry (value : PoolEntry) : WellFormed (Interning.entry value) := by
  intro pool part
  unfold Interning.entry
  split
  · simp
  · exact append value pool part

theorem utf8 (text : String) : WellFormed (Interning.utf8 text) := by
  intro pool part
  unfold Interning.utf8
  split
  · simp
  · dsimp only
    split
    · simp
    · exact append _ pool part

theorem className (name : String) : WellFormed (Interning.className name) :=
  (utf8 name).bind fun _ => entry _

theorem tableCount (length : Nat) : WellFormed (liftM (Bytes.tableCount length)) := by
  refine lift fun part => ?_
  unfold Bytes.tableCount
  split <;> simp

variable (move : Nat → Nat)

theorem type (type : VerificationType) : WellFormed (type.write move) := by
  cases type with
  | object name => exact (className name).bind fun _ => pure _
  | uninitialized offset =>
    unfold VerificationType.write
    dsimp only
    split
    · exact pure _
    · exact throw (by simp)
  | _ => exact pure _

theorem types (types : List VerificationType) : WellFormed (VerificationType.writeAll move types) :=
  (mapM fun type _ => Interning.WellFormed.type move type).map _

theorem typeTable (types : List VerificationType) :
    WellFormed (VerificationType.writeTable move types) :=
  (tableCount _).bind fun _ => (Interning.WellFormed.types move types).bind fun _ => pure _

theorem kind (distance : Nat) (kind : FrameKind) : WellFormed (kind.write move distance) := by
  cases kind with
  | same =>
    simp only [FrameKind.write]
    split <;> exact pure _
  | sameWithItem item =>
    refine (type move item).bind fun _ => ?_
    split <;> exact pure _
  | chop count => exact pure _
  | append items => exact (types move items).bind fun _ => pure _
  | full locals stack =>
    exact (typeTable move locals).bind fun _ => (typeTable move stack).bind fun _ => pure _

theorem frames {frames : List Frame} {base : Nat}
    (low : ∀ frame ∈ frames, base ≤ move frame.offset)
    (ascending : frames.Pairwise fun first second => move first.offset < move second.offset) :
    WellFormed (Frame.writeFrom move base frames) := by
  induction frames generalizing base with
  | nil => exact pure _
  | cons frame rest ih =>
    have first := low frame List.mem_cons_self
    rw [List.pairwise_cons] at ascending
    rw [Frame.writeFrom]
    dsimp only
    rw [if_neg (by omega)]
    have behind : WellFormed (do
        let first ← frame.kind.write move (move frame.offset - base)
        let rest ← Frame.writeFrom move (move frame.offset + 1) rest
        Pure.pure (first ++ rest)) :=
      (kind move _ _).bind fun _ => (ih ascending.1 ascending.2).bind fun _ => pure _
    split
    · exact (throw (by simp)).bind fun _ => behind
    · exact behind

theorem frameTable {frames : List Frame}
    (ascending : frames.Pairwise fun first second => move first.offset < move second.offset) :
    WellFormed (Frame.writeTable move frames) :=
  (tableCount _).bind fun _ =>
    (Interning.WellFormed.frames move (fun _ _ => Nat.zero_le _) ascending).bind fun _ => pure _

end Interning.WellFormed

namespace Code

variable {depth : Nat} {code : Code}

theorem Proper.frames_ascending (proper : code.Proper depth) {frames : List Frame}
    (ascending : frames.Pairwise fun first second => first.offset < second.offset)
    (starts : ∀ frame ∈ frames, IsStart code.instructions frame.offset)
    {operands : List (Option UInt16)} {layout : Layout}
    (same : operands.length = code.instructions.length)
    (done : Layout.compute code operands = .ok layout) :
    frames.Pairwise fun first second => layout.move first.offset < layout.move second.offset := by
  have covers := Layout.covers_compute same proper.tiles done
  refine ascending.imp_of_mem fun {first second} one other before => ?_
  obtain ⟨start, here, at_⟩ := starts first one
  obtain ⟨next, there, starting⟩ := starts second other
  rw [← at_, ← starting] at before ⊢
  exact covers.move_lt_move same proper.tiles here there before

/-- An analysis of the body finds whatever it looks for; and the table that comes of it is in order,
in every layout of the new body, and so is not refused when it is written. -/
structure SoundFrames (member : Member) (code : Code) : Prop where
  analysis : ∀ context steps cache error,
    ((code.analyze context member steps).run cache).1 = .error error → ¬ error.fault.Misplaced
  written : ∀ context major cache result after,
    code.recompute context major member cache = (.ok result, after) →
      ∃ frames, result.stackMaps = (if frames = [] then [] else [frames]) ++ code.stackMaps.tail ∧
        ∀ operands layout, operands.length = result.instructions.length →
          Layout.compute result operands = .ok layout →
            (frames.Pairwise fun first second =>
              layout.move first.offset < layout.move second.offset) ∧
            Interning.WellFormed (Frame.writeTable layout.move frames)

theorem Proper.soundFrames (proper : code.Proper depth) (member : Member) :
    code.SoundFrames member where
  analysis context steps _ _ failed :=
    Flow.not_misplaced (fun table => sound_analyze proper context table member steps) failed
  written context major cache result after done := by
    obtain ⟨entry, flow, analysed, found⟩ := recomputeWithin_eq_ok_iff.1 done
    have explored := proper.explored analysed
    have again := proper.withFlow explored.size found
    by_cases version : stackMapVersion ≤ major
    · obtain ⟨frames, emitted, framed⟩ := proper.framed explored version found
      refine ⟨frames, emitted, fun operands layout same placed => ?_⟩
      have ascending := again.frames_ascending framed.ascending framed.starts same placed
      exact ⟨ascending, .frameTable _ ascending⟩
    · -- Before stack map tables there is none that is new.
      refine ⟨[], ?_, fun operands layout _ _ => ⟨.nil, .frameTable _ .nil⟩⟩
      obtain ⟨maxStack, maxLocals, rfl⟩ := eq_of_withFlow found
      rw [if_neg version, stackMaps_setStackMap, ← stackMaps_carveHandlers code]
      rfl

end Code

def FailsWith {α : Type} (allowed : RelocationError → Prop) (action : Relocating α) : Prop :=
  ∀ cache error, (action.run cache).1 = .error error → allowed error

namespace FailsWith

variable {α β : Type} {allowed : RelocationError → Prop}

theorem pure (value : α) : FailsWith allowed (pure value) := fun _ _ failed => by cases failed

theorem throw {error : RelocationError} (known : allowed error) :
    FailsWith allowed (throw error : Relocating α) := by
  intro cache other failed
  cases failed
  exact known

theorem bind {action : Relocating α} {next : α → Relocating β} (first : FailsWith allowed action)
    (second : ∀ value, FailsWith allowed (next value)) : FailsWith allowed (action >>= next) := by
  intro cache error failed
  cases done : action.run cache with
  | mk outcome after =>
    cases outcome with
    | error cause =>
      rw [ExceptT.run_bind_error done] at failed
      cases failed
      exact first cache error (by rw [done])
    | ok value =>
      rw [ExceptT.run_bind_ok done] at failed
      exact second value after error failed

theorem bind_lift {action : Resolving α} {next : α → Relocating β}
    (second : ∀ cache, FailsWith allowed (next (action cache).1)) :
    FailsWith allowed (liftM action >>= next) :=
  fun cache error failed => second cache (action cache).2 error failed

theorem map {action : Relocating α} (first : FailsWith allowed action) (f : α → β) :
    FailsWith allowed (f <$> action) := by
  rw [← bind_pure_comp]
  exact first.bind fun value => pure _

theorem mapM {items : List α} {step : α → Relocating β}
    (each : ∀ item ∈ items, FailsWith allowed (step item)) : FailsWith allowed (items.mapM step) := by
  induction items with
  | nil => exact pure _
  | cons item rest ih =>
    rw [List.forall_mem_cons] at each
    rw [List.mapM_cons]
    exact each.1.bind fun value => (ih each.2).bind fun values => pure _

end FailsWith

def RelocationError.Sound : RelocationError → Prop
  | frames _ _ cause => ¬ cause.fault.Misplaced
  | _ => True

namespace Relocator

variable {depth : Nat} {context : FrameContext} {name : String} {major : UInt16}

theorem placed_recomputeBody {body : Code} (proper : body.Proper depth) (member : Member) :
    FailsWith RelocationError.Sound (recomputeBody context name major member body) := by
  unfold recomputeBody
  split
  · exact .pure _
  · refine .bind_lift fun cache => ?_
    split
    · exact .pure _
    · next cause failed =>
      have sound (table : String → TypeMetadata) :=
        Code.sound_recompute proper context table major member
      exact .throw (Flow.not_misplaced sound failed)

theorem placed_recomputeFrames (relocator : Relocator) {model : ClassModel}
    (proper : model.Proper depth) :
    FailsWith RelocationError.Sound (relocator.recomputeFrames name model) := by
  refine .bind (fun cache error failed => by cases failed) fun _ => ?_
  refine .bind (.mapM fun method listed => ?_) fun _ => .pure _
  refine .bind (.mapM fun item inside => ?_) fun _ => .pure _
  have fine := Attribute.allProper_iff.1 (proper.methods method listed) item inside
  cases item with
  | code body => exact (placed_recomputeBody fine method).map _
  | _ => exact .pure _

theorem placed_relocate (relocator : Relocator) {bytes : Bytes} {file : ClassFile}
    (parsed : ClassFile.parse bytes = .ok file) (hint : Option String) :
    FailsWith RelocationError.Sound (relocator.relocate hint bytes) := by
  have proper := (ClassFile.proper_of_parse parsed).2.relocate relocator.table
  unfold relocate
  dsimp only
  split
  · exact .throw trivial
  · exact .pure _
  · rw [parsed]
    dsimp only
    unfold relocateFile
    dsimp only
    split
    · exact .pure _
    · split
      · refine (placed_recomputeFrames relocator proper).bind fun model => ?_
        split
        · exact .pure _
        · exact .throw trivial
      · refine (FailsWith.pure _).bind fun model => ?_
        split
        · exact .pure _
        · exact .throw trivial

/-- Relocating a class that can be read never fails because an analysis of a method finds nothing
where it looks. And of every body that it recomputes, in whichever surroundings, this is so, and the
new table of frames is in order wherever the instructions move, so that it is not refused. -/
theorem relocate_sound (relocator : Relocator) {bytes : Bytes} {file : ClassFile}
    (parsed : ClassFile.parse bytes = .ok file) :
    (∀ hint cache name method cause,
      ((relocator.relocate hint bytes).run cache).1 = .error (.frames name method cause) →
        ¬ cause.fault.Misplaced) ∧
    ∀ method ∈ (file.model.relocate relocator.table).methods, ∀ code,
      .code code ∈ method.attributes → code.SoundFrames method := by
  refine ⟨fun hint cache name method cause failed =>
    placed_relocate relocator parsed hint cache _ failed, fun method listed code inside => ?_⟩
  have proper := (ClassFile.proper_of_parse parsed).2.relocate relocator.table
  have fine : code.Proper file.pool.depth :=
    Attribute.allProper_iff.1 (proper.methods method listed) _ inside
  exact fine.soundFrames method

end Relocator

theorem mainClass_sound : ∃ file, ClassFile.parse mainClass = .ok file ∧
    ∃ method ∈ (file.model.relocate (siblingRelocator .empty).table).methods, ∃ code,
      .code code ∈ method.attributes ∧ code.instructions.length = 3 ∧ code.SoundFrames method := by
  have checked : ((ClassFile.parse mainClass).toOption.any fun file =>
      (file.model.relocate (siblingRelocator .empty).table).methods.any fun method =>
        method.code?.any fun code => code.instructions.length = 3) = true := by
    decide +kernel
  cases parsed : ClassFile.parse mainClass with
  | error cause =>
    rw [parsed] at checked
    cases checked
  | ok file =>
    rw [parsed] at checked
    obtain ⟨method, listed, found⟩ := List.any_eq_true.1 checked
    obtain ⟨code, body, three⟩ := (Option.any_eq_true _ _).1 found
    obtain ⟨item, inside, held⟩ := List.exists_of_findSome?_eq_some body
    cases item with
    | code _ =>
      cases held
      exact ⟨file, rfl, method, listed, code, inside, of_decide_eq_true three,
        ((siblingRelocator .empty).relocate_sound parsed).2 method listed code inside⟩
    | _ => cases held

end ClassRenaming
