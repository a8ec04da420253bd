import ClassRenaming.Proofs.EmittedFrames
import Mathlib.Logic.Relation

/-!
The maxima that a recomputed body gets. They are those of what the visits of a run saw, not of the
states at its end. A visit sees the states before and behind its instruction, recorded stacks never
change their height, and recorded local variables get no longer than what was seen; so at the end the
maxima are enough for all that was recorded or made on the way.
-/

namespace ClassRenaming

open FrameState VerificationType

/-! The local variables that instructions name. -/

/-- Kinds are those of int, long, float and double variables, and of references. -/
def kindSlots (kind : Nat) : Nat := if kind = 1 ∨ kind = 3 then 2 else 1

namespace Instruction

/-- The local variable that an instruction reads or writes: its first slot and how many there are. The
short forms are for the first four variables of every kind. -/
def localSlots? : Instruction → Option (Nat × Nat)
  | .simple opcode =>
    let code := opcode.toNat
    if 0x1A ≤ code ∧ code ≤ 0x2D then some ((code - 0x1A) % 4, kindSlots ((code - 0x1A) / 4))
    else if 0x3B ≤ code ∧ code ≤ 0x4E then
      some ((code - 0x3B) % 4, kindSlots ((code - 0x3B) / 4))
    else none
  | .local opcode index _ =>
    let code := opcode.toNat
    some (index.toNat, kindSlots (if code ≤ 0x19 then code - 0x15 else code - 0x36))
  | .increment index _ _ => some (index.toNat, 1)
  | _ => none

def UsesLocal (instruction : Instruction) (slot : Nat) : Prop :=
  ∃ first count, instruction.localSlots? = some (first, count) ∧ first ≤ slot ∧ slot < first + count

end Instruction

theorem kindSlots_le (kind : Nat) (other : VerificationType) :
    kindSlots kind ≤ ((kindType? kind).getD other).slots := by
  unfold kindSlots kindType?
  split
  · next wide => rcases wide with rfl | rfl <;> exact Nat.le_refl _
  · exact slots_pos _

namespace FrameState

variable {state after : FrameState} {kind index : Nat}

theorem length_setLocal (index : Nat) (type : VerificationType) (state : FrameState) :
    (state.setLocal index type).locals.length = max state.locals.length (index + type.slots) := by
  unfold setLocal
  dsimp only
  split <;> simp only [List.length_set, length_cutWide, length_extend]

theorem locals_push (type : VerificationType) (state : FrameState) :
    (state.push type).locals = state.locals := rfl

theorem length_load (kind index : Nat) (state : FrameState) :
    index + kindSlots kind ≤ (state.load kind index).locals.length := by
  have wide := kindSlots_le kind (state.localType index)
  simp only [load, locals_push, reserve, length_extend]
  omega

theorem length_store (done : state.store kind index = .ok after) :
    index + kindSlots kind ≤ after.locals.length := by
  unfold store at done
  split at done
  · next type known =>
    obtain ⟨middle, -, rfl⟩ := Except.map_eq_ok.1 done
    have wide := kindSlots_le kind type
    rw [known, Option.getD_some] at wide
    rw [length_setLocal]
    omega
  · next plain =>
    obtain ⟨⟨type, middle⟩, -, done⟩ := Except.bind_eq_ok.1 done
    cases done
    have wide := kindSlots_le kind type
    rw [plain, Option.getD_none] at wide
    rw [length_setLocal]
    omega

end FrameState

def Effect.localSlots? : Effect → Option (Nat × Nat)
  | .load kind index | .store kind index => some (index, kindSlots kind)
  | _ => none

theorem Instruction.localSlots?_simple : ∀ opcode : UInt8,
    localSlots? (.simple opcode) = (Effect.ofOpcode? opcode).bind Effect.localSlots? :=
  forall_byte (by decide +kernel)

namespace FrameState

variable {state after : FrameState}

theorem length_apply {effect : Effect} (done : state.apply effect = .ok after) {first count : Nat}
    (named : effect.localSlots? = some (first, count)) : first + count ≤ after.locals.length := by
  cases effect with
  | load kind index =>
    cases named
    cases done
    exact length_load _ _ state
  | store kind index =>
    cases named
    exact length_store done
  | replace | rearrange | element => cases named

theorem length_execute {owner : String} {made : Nat → Option String} {placed : Placed}
    (done : state.execute owner made placed = .ok after) {slot : Nat}
    (uses : placed.instruction.UsesLocal slot) : slot < after.locals.length := by
  obtain ⟨first, count, named, -, inside⟩ := uses
  suffices first + count ≤ after.locals.length by omega
  unfold execute at done
  cases known : placed.instruction with
  | simple opcode =>
    rw [known] at done named
    rw [Instruction.localSlots?_simple] at named
    obtain ⟨effect, found, named⟩ := Option.bind_eq_some_iff.1 named
    simp only [found] at done
    exact length_apply done named
  | «local» opcode index wide =>
    rw [known] at done named
    dsimp only at done
    cases named
    split at done
    · next low =>
      cases done
      rw [if_pos low]
      exact length_load _ _ state
    · next high =>
      rw [if_neg high]
      split at done
      · exact length_store done
      · cases done
  | increment index amount wide =>
    rw [known] at done named
    cases named
    cases done
    rw [length_setLocal]
    exact Nat.le_max_right _ _
  | _ =>
    rw [known] at named
    cases named

theorem length_ofParameters (types : List FieldType) :
    (ofParameters types).length =
      types.foldr (fun parameter slots => parameter.slots + slots) 0 := by
  induction types with
  | nil => rfl
  | cons type rest ih =>
    rw [ofParameters, List.flatMap_cons, List.length_append, List.foldr_cons, ← ih]
    congr 1
    cases type with
    | base type => cases type <;> rfl
    | _ => rfl

theorem length_onEntry {owner : String} {member : Member} {entry : FrameState}
    (done : onEntry owner member = .ok entry) {type : MethodType}
    (parsed : Descriptor.methodType member.descriptor = .ok type) :
    entry.locals.length = (if member.isStatic then 0 else 1) + type.parameterSlots := by
  rw [onEntry, parsed] at done
  cases done
  rw [List.length_append, length_ofParameters, MethodType.parameterSlots]
  split <;> rfl

end FrameState

theorem ensures_length_mergeStates {hierarchy : Hierarchy} {table : String → TypeMetadata}
    (recorded incoming : FrameState) :
    Ensures hierarchy table (hierarchy.mergeStates recorded incoming) fun merged =>
      merged.locals.length = max recorded.locals.length incoming.locals.length := by
  refine .bind (ensures_mergeSlots recorded.locals incoming.locals) fun locals sides => ?_
  exact .bind (ensures_mergeSlots recorded.stack incoming.stack) fun stack _ => .pure sides.1

namespace Flow

def LocalsFit (flow : Flow) : Prop :=
  ∀ position state, flow.stateAt? position = some state → state.locals.length ≤ flow.maxLocals

structure Raises (before after : Flow) : Prop where
  stack : before.maxStack ≤ after.maxStack
  locals : before.maxLocals ≤ after.maxLocals
  fit : before.LocalsFit → after.LocalsFit

namespace Raises

variable {a b c : Flow}

theorem refl (flow : Flow) : Raises flow flow := ⟨Nat.le_refl _, Nat.le_refl _, id⟩

theorem trans (first : Raises a b) (second : Raises b c) : Raises a c :=
  ⟨first.stack.trans second.stack, first.locals.trans second.locals, second.fit ∘ first.fit⟩

theorem see (flow : Flow) (stack locals : Nat) : Raises flow (flow.see stack locals) where
  stack := Nat.le_max_left _ _
  locals := Nat.le_max_left _ _
  fit fits position state at_ := (fits position state at_).trans (Nat.le_max_left _ _)

theorem mark (flow : Flow) (position : Nat) : Raises flow (flow.mark position) := by
  unfold Flow.mark
  split
  · exact .refl flow
  · exact ⟨Nat.le_refl _, Nat.le_refl _, id⟩

theorem record {state : FrameState} (short : state.locals.length ≤ a.maxLocals) (position : Nat) :
    Raises a (a.record position state) where
  stack := Nat.le_refl _
  locals := Nat.le_refl _
  fit fits other found at_ := by
    rcases stateAt?_of_record at_ with ⟨-, rfl⟩ | old
    · exact short
    · exact fits other found old

end Raises

structure Seen (flow : Flow) (handlers : List Handler) (placed : Placed) (entry exit : FrameState) :
    Prop where
  entry : entry.stack.length ≤ flow.maxStack
  exit : exit.stack.length ≤ flow.maxStack
  locals : ∀ slot, placed.instruction.UsesLocal slot → slot < flow.maxLocals
  thrown : ∀ handler ∈ handlers, handler.Covers placed.offset → 1 ≤ flow.maxStack

theorem Seen.mono {before after : Flow} {handlers : List Handler} {placed : Placed}
    {entry exit entry' exit' : FrameState} (seen : Seen before handlers placed entry exit)
    (raises : Raises before after) (entries : Alike entry entry') (exits : Alike exit exit') :
    Seen after handlers placed entry' exit' where
  entry := entries.stack ▸ seen.entry.trans raises.stack
  exit := exits.stack ▸ seen.exit.trans raises.stack
  locals slot uses := (seen.locals slot uses).trans_le raises.locals
  thrown handler member covers := (seen.thrown handler member covers).trans raises.stack

def Noted (owner : String) (body : Body) (flow : Flow) (position : Nat) : Prop :=
  ∀ placed entry, body.instructions[position]? = some placed → flow.stateAt? position = some entry →
    ∃ exit, entry.execute owner body.made? placed = .ok exit ∧
      Seen flow body.handlers placed entry exit

section Visits

variable {hierarchy : Hierarchy} {context : FrameContext} {table : String → TypeMetadata}
  {code : Code} {flow : Flow}

theorem gives_arrive_raises {offset position : Nat} {incoming : FrameState}
    (fits : flow.LocalsFit) (short : incoming.locals.length ≤ flow.maxLocals) :
    Gives hierarchy table IsFault (flow.arrive hierarchy offset incoming position)
      (Raises flow) := by
  refine .arrive (fun _ => (Raises.record short position).trans (.mark _ _)) isFault_heightsDiffer
    fun recorded at_ _ => (ensures_length_mergeStates recorded incoming).mono fun merged length => ?_
  have old := fits position recorded at_
  have short : merged.locals.length ≤ flow.maxLocals := by omega
  split
  · exact .record short position
  · exact (Raises.record short position).trans (.mark _ _)

theorem gives_catchIn_raises {body : Body} {offset : Nat} {entry exit : FrameState}
    (handler : Handler) (fits : flow.LocalsFit) (before : entry.locals.length ≤ flow.maxLocals)
    (after : exit.locals.length ≤ flow.maxLocals) :
    Gives hierarchy table IsFault (catchIn hierarchy body offset entry exit flow handler) fun result =>
      Raises flow result ∧ (handler.Covers offset → 1 ≤ result.maxStack) := by
  refine .catchIn (fun outside => ⟨.refl flow, fun covers => absurd covers outside⟩) nofun
    fun target _ _ => ?_
  have seen := Raises.see flow 1 0
  have one : 1 ≤ (flow.see 1 0).maxStack := Nat.le_max_right _ _
  refine .bind (gives_arrive_raises (seen.fit fits) (before.trans seen.locals)) ?_
  intro middle first
  refine .mono (gives_arrive_raises (first.fit (seen.fit fits))
    ((after.trans seen.locals).trans first.locals)) fun result second => ?_
  exact ⟨seen.trans (first.trans second), fun _ => one.trans (first.trans second).stack⟩

theorem gives_arrivals_raises {offset : Nat} {exit : FrameState} {targets : List Nat}
    (fits : flow.LocalsFit) (short : exit.locals.length ≤ flow.maxLocals) :
    Gives hierarchy table IsFault
      (targets.foldlM (fun flow target => flow.arrive hierarchy offset exit target) flow)
      (Raises flow) := by
  refine .foldlM (fun target _ before raised => ?_) (.refl flow)
  exact (gives_arrive_raises (raised.fit fits) (short.trans raised.locals)).mono
    fun after step => raised.trans step

theorem gives_handlers_raises {body : Body} {offset : Nat} {entry exit : FrameState}
    {handlers : List Handler} (fits : flow.LocalsFit)
    (before : entry.locals.length ≤ flow.maxLocals) (after : exit.locals.length ≤ flow.maxLocals) :
    Gives hierarchy table IsFault
      (handlers.foldlM (catchIn hierarchy body offset entry exit) flow) fun result =>
        Raises flow result ∧
          ∀ handler ∈ handlers, handler.Covers offset → 1 ≤ result.maxStack := by
  refine gives_foldlM .refl .trans ?_ fun handler _ middle raised =>
    gives_catchIn_raises handler (raised.fit fits) (before.trans raised.locals)
      (after.trans raised.locals)
  exact fun first second handler one raises covers => (one covers).trans raises.stack

theorem gives_visit_raises (position : Nat) (fits : flow.LocalsFit) :
    Gives context.hierarchy table IsFault (visit context (Body.ofCode code) position flow)
      fun after => Raises flow after ∧
        ∀ placed entry, (Body.ofCode code).instructions[position]? = some placed →
          flow.stateAt? position = some entry →
            ∃ exit, entry.execute context.owner (Body.ofCode code).made? placed = .ok exit ∧
              Seen after code.handlers placed entry exit := by
  refine .visit (fun absent => ⟨.refl flow, fun placed entry here at_ => ?_⟩)
    (fun _ _ _ _ _ failed => isFault_of_execute failed) fun placed entry exit here at_ done => ?_
  · exact absurd at_ (absent placed entry here)
  · have seen := Raises.see flow (max entry.stack.length exit.stack.length) exit.locals.length
    have before : entry.locals.length ≤ flow.maxLocals := fits position entry at_
    have behind : exit.locals.length ≤ (flow.see (max entry.stack.length exit.stack.length)
        exit.locals.length).maxLocals := Nat.le_max_right _ _
    have higher : max entry.stack.length exit.stack.length ≤
        (flow.see (max entry.stack.length exit.stack.length)
          exit.locals.length).maxStack := Nat.le_max_right _ _
    refine .bind ((gives_successors position placed).mono fun _ _ => trivial) fun targets _ => ?_
    refine .bind (gives_arrivals_raises (seen.fit fits) behind) fun middle first => ?_
    have start := seen.trans first
    refine .mono (gives_handlers_raises (start.fit fits) (before.trans start.locals)
      (behind.trans first.locals)) ?_
    rintro after ⟨second, thrown⟩
    refine ⟨start.trans second, fun other state same known => ?_⟩
    obtain rfl : placed = other := Option.some.inj (here.symm.trans same)
    obtain rfl : entry = state := Option.some.inj (at_.symm.trans known)
    have total := first.trans second
    refine ⟨exit, done, ⟨?_, ?_, fun slot uses => ?_, thrown⟩⟩
    · exact ((Nat.le_max_left _ _).trans higher).trans total.stack
    · exact ((Nat.le_max_right _ _).trans higher).trans total.stack
    · exact (length_execute done uses).trans_le (behind.trans total.locals)

end Visits

section Runs

variable {context : FrameContext} {table : String → TypeMetadata} {body : Body} {code : Code}

def Visits (context : FrameContext) (body : Body) (before after : Flow × MetadataCache) : Prop :=
  ∃ position rest, before.1.pending = position :: rest ∧
    (visit context body position { before.1 with pending := rest }).run before.2 =
      (.ok after.1, after.2)

abbrev Goes (context : FrameContext) (body : Body) :
    Flow × MetadataCache → Flow × MetadataCache → Prop :=
  Relation.ReflTransGen (Visits context body)

theorem visits_unique : Relator.RightUnique (Visits context body) := by
  rintro before ⟨first, middle⟩ ⟨second, later⟩ ⟨position, rest, pending, done⟩ ⟨_, _, same, made⟩
  rw [pending] at same
  cases same
  rw [done] at made
  cases made
  rfl

theorem goes_of_run {steps : Nat} {flow last : Flow} {cache after : MetadataCache}
    (ended : (run context body steps flow).run cache = (.ok last, after)) :
    Goes context body (flow, cache) (last, after) ∧ last.pending = [] := by
  induction steps generalizing flow cache with
  | zero =>
    rw [run] at ended
    split at ended
    · next idle =>
      cases ended
      exact ⟨.refl, List.isEmpty_iff.1 idle⟩
    · cases ended
  | succ steps ih =>
    rw [run] at ended
    split at ended
    · next idle =>
      cases ended
      exact ⟨.refl, idle⟩
    · next position rest pending =>
      obtain ⟨next, middle, first, second⟩ := ExceptT.run_bind_eq_ok.1 ended
      obtain ⟨later, idle⟩ := ih second
      have visits : Visits context body (flow, cache) (next, middle) :=
        ⟨position, rest, pending, first⟩
      exact ⟨later.head visits, idle⟩

theorem Goes.onwards {first middle last : Flow × MetadataCache} (whole : Goes context body first last)
    (idle : last.1.pending = []) (part : Goes context body first middle) :
    Goes context body middle last := by
  rcases Relation.ReflTransGen.total_of_right_unique visits_unique part whole with
    later | back
  · exact later
  · rcases Relation.ReflTransGen.cases_head back with same | ⟨_, ⟨_, _, pending, -⟩, -⟩
    · rw [same]
    · rw [idle] at pending
      cases pending

theorem noted_of_alike {owner : String} {before seen after : Flow} {position : Nat}
    (told : ∀ placed entry, body.instructions[position]? = some placed →
      before.stateAt? position = some entry →
        ∃ exit, entry.execute owner body.made? placed = .ok exit ∧
          Seen seen body.handlers placed entry exit)
    (raises : Raises seen after)
    (silent : ∀ new, after.stateAt? position = some new →
      ∃ old, before.stateAt? position = some old ∧ Alike old new) :
    Noted owner body after position := by
  intro placed entry' found at_
  obtain ⟨entry, here, like⟩ := silent entry' at_
  obtain ⟨exit, done, saw⟩ := told placed entry found here
  obtain ⟨exit', done', likewise⟩ := (like.execute owner body.made? placed).exists_ok done
  exact ⟨exit', done', saw.mono raises like likewise⟩

structure Watched (context : FrameContext) (table : String → TypeMetadata) (code : Code)
    (flow : Flow) : Prop where
  consistent : Consistent context table code flow
  fit : flow.LocalsFit
  noted : ∀ position ∉ flow.pending, Noted context.owner (Body.ofCode code) flow position

theorem watched_start (entry : FrameState) :
    Watched context table code (start (Body.ofCode code) entry) := by
  refine ⟨consistent_start entry, fun position state at_ => ?_, fun position idle _ state _ at_ => ?_⟩
  · rw [(pending_of_stateAt?_start at_).1]
    exact Nat.le_refl _
  · exact absurd (pending_of_stateAt?_start at_).2 idle

theorem Watched.visit {flow : Flow} {position : Nat} {rest : List Nat}
    (watched : Watched context table code flow) (pending : flow.pending = position :: rest) :
    Gives context.hierarchy table IsFault
      (Flow.visit context (Body.ofCode code) position { flow with pending := rest }) fun after =>
        Watched context table code after ∧ Grows table flow after ∧ Raises flow after ∧
          ∀ placed entry, (Body.ofCode code).instructions[position]? = some placed →
            flow.stateAt? position = some entry →
              ∃ exit, entry.execute context.owner (Body.ofCode code).made? placed = .ok exit ∧
                Seen after code.handlers placed entry exit := by
  have fit : ({ flow with pending := rest } : Flow).LocalsFit := watched.fit
  refine .mono ((watched.consistent.visit pending).and (gives_visit_raises position fit)) ?_
  rintro after ⟨⟨step, consistent⟩, raises, told⟩
  have raises : Raises flow after := ⟨raises.stack, raises.locals, raises.fit⟩
  refine ⟨⟨consistent, raises.fit watched.fit, fun other idle => ?_⟩, step.grown, raises, told⟩
  have silent (new : FrameState) (at_ : after.stateAt? other = some new) :
      ∃ old, flow.stateAt? other = some old ∧ Alike old new :=
    (step.news other new at_).resolve_left idle
  by_cases here : other = position
  · subst here
    exact noted_of_alike told (.refl after) silent
  · have before : other ∉ flow.pending := by
      rw [pending]
      intro member
      rcases List.mem_cons.1 member with same | later
      · exact here same
      · exact idle (step.pending other later)
    exact noted_of_alike (watched.noted other before) raises silent

theorem Visits.gives {before after : Flow × MetadataCache} (visits : Visits context body before after)
    {position : Nat} {rest : List Nat} (pending : before.1.pending = position :: rest)
    {fails : FrameFault → Prop} {good : Flow → Prop}
    (given : Gives context.hierarchy table fails
      (visit context body position { before.1 with pending := rest }) good)
    (same : context.hierarchy.view before.2 = table) :
    good after.1 ∧ context.hierarchy.view after.2 = table := by
  obtain ⟨_, _, also, done⟩ := visits
  rw [pending] at also
  cases also
  have result := given before.2 same
  rw [ExceptT.run] at done
  rw [ExceptT.run, done] at result
  exact result

theorem Visits.watched {before after : Flow × MetadataCache}
    (visits : Visits context (Body.ofCode code) before after)
    (same : context.hierarchy.view before.2 = table)
    (watched : Watched context table code before.1) :
    context.hierarchy.view after.2 = table ∧ Watched context table code after.1 ∧
      Grows table before.1 after.1 ∧ Raises before.1 after.1 := by
  obtain ⟨position, rest, pending, -⟩ := id visits
  obtain ⟨⟨next, grows, raises, -⟩, still⟩ := visits.gives pending (watched.visit pending) same
  exact ⟨still, next, grows, raises⟩

theorem Goes.watched {first last : Flow × MetadataCache}
    (goes : Goes context (Body.ofCode code) first last)
    (same : context.hierarchy.view first.2 = table) (watched : Watched context table code first.1) :
    context.hierarchy.view last.2 = table ∧ Watched context table code last.1 ∧
      Grows table first.1 last.1 ∧ Raises first.1 last.1 := by
  induction goes with
  | refl => exact ⟨same, watched, .refl table _, .refl _⟩
  | tail _ visits ih =>
    obtain ⟨same, watched, grows, raises⟩ := ih
    obtain ⟨still, next, grown, raised⟩ := visits.watched same watched
    exact ⟨still, next, grows.trans grown, raises.trans raised⟩

section Ends

variable {middle last : Flow × MetadataCache} (idle : last.1.pending = [])
  (onwards : Goes context (Body.ofCode code) middle last)
  (same : context.hierarchy.view middle.2 = table) (watched : Watched context table code middle.1)
include idle onwards same watched

theorem le_of_recorded {position : Nat} {state : FrameState}
    (at_ : middle.1.stateAt? position = some state) :
    state.stack.length ≤ last.1.maxStack ∧ state.locals.length ≤ last.1.maxLocals := by
  obtain ⟨-, watched', grows, raises⟩ := onwards.watched same watched
  refine ⟨?_, (watched.fit position state at_).trans raises.locals⟩
  obtain ⟨new, there, below⟩ := grows position state at_
  have inside : position < (Body.ofCode code).instructions.size := by
    rw [← watched'.consistent.size]
    by_contra outside
    rw [stateAt?, Array.getElem?_eq_none (by omega)] at there
    cases there
  obtain ⟨exit, -, seen⟩ := watched'.noted position (by simp [idle]) _ new
    (Array.getElem?_eq_getElem inside) there
  exact below.height ▸ seen.entry

theorem le_of_executed {position : Nat} {rest : List Nat}
    (pending : middle.1.pending = position :: rest) {placed : Placed} {entry exit : FrameState}
    (here : (Body.ofCode code).instructions[position]? = some placed)
    (known : middle.1.stateAt? position = some entry)
    (done : entry.execute context.owner (Body.ofCode code).made? placed = .ok exit) :
    exit.stack.length ≤ last.1.maxStack := by
  rcases Relation.ReflTransGen.cases_head onwards with rfl | ⟨next, visits, later⟩
  · rw [pending] at idle
    cases idle
  · obtain ⟨⟨next', -, -, told⟩, still⟩ := visits.gives pending (watched.visit pending) same
    obtain ⟨_, done', seen⟩ := told placed entry here known
    rw [done] at done'
    cases done'
    obtain ⟨-, -, -, raises⟩ := Goes.watched later still next'
    exact seen.exit.trans raises.stack

end Ends

end Runs

end Flow

namespace Code

variable {depth : Nat} {code result : Code} {flow : Flow} {context : FrameContext} {member : Member}
  {cache after : MetadataCache}

theorem Proper.deadRanges_of_unreached (proper : code.Proper depth) (explored : code.Explored flow)
    {position : Nat} (inside : position < code.instructions.length)
    (unreached : ¬ code.Reached position) : code.deadRanges flow ≠ [] := by
  have chained := proper.chained explored
  obtain ⟨span, here, -⟩ := explored.span (List.getElem?_eq_getElem inside)
  have dead : span.isDead := by
    by_contra live
    exact unreached ((explored.live_iff here).1 live)
  have listed := List.mem_of_getElem? here
  have start : Span.Inside (span.placed.offset, span.stop) span.placed.offset :=
    ⟨Nat.le_refl _, chained.offset_lt_stop span listed⟩
  have covered : ∃ range ∈ code.deadRanges flow, Span.Inside range span.placed.offset :=
    (Span.inside_deadRanges chained (by simp) _).2 (.inr ⟨span, listed, dead, start⟩)
  obtain ⟨range, member, -⟩ := covered
  exact List.ne_nil_of_mem member

theorem withFlow_maxima {major : UInt16} {entry : FrameState}
    (done : code.withFlow major entry flow = .ok result) :
    result.maxStack.toNat = code.stackNeed flow ∧ result.maxLocals.toNat = flow.maxLocals ∧
      result.handlers = code.handlers.flatMap (Handler.carve (code.deadRanges flow)) := by
  obtain ⟨stack, locals, rfl⟩ := withFlow_eq_ok_iff.1 done
  refine ⟨?_, ?_, handlers_carveHandlers _⟩
  · exact UInt16.toNat_ofNat_of_lt' (by simpa [UInt16.size] using Nat.lt_succ_of_le stack)
  · exact UInt16.toNat_ofNat_of_lt' (by simpa [UInt16.size] using Nat.lt_succ_of_le locals)

theorem le_stackNeed (code : Code) (flow : Flow) : flow.maxStack ≤ code.stackNeed flow := by
  unfold stackNeed
  split
  · exact Nat.le_refl _
  · exact Nat.le_max_left _ _

theorem goes_of_analyze {entry : FrameState} {steps : Nat}
    (onEntry : FrameState.onEntry context.owner member = .ok entry)
    (ended : code.analyze context member steps cache = (.ok (entry, flow), after)) :
    Flow.Goes context (Body.ofCode code) (Flow.start (Body.ofCode code) entry, cache) (flow, after) ∧
      flow.pending = [] := by
  unfold analyze at ended
  rw [onEntry] at ended
  obtain ⟨last, later, ran, done⟩ := ExceptT.run_bind_eq_ok.1 ended
  cases done
  exact Flow.goes_of_run ran

/-- Maxima that are enough for an analysis of a body: for the states at its end and all before, for
the receiver and the parameters, for the local variables that reached instructions name, and for what
is thrown. -/
structure Suffices (context : FrameContext) (member : Member) (code : Code) (cache : MetadataCache)
    (entry : FrameState) (flow : Flow) (result : Code) : Prop where
  recorded : ∀ middle known, Flow.Goes context (Body.ofCode code)
      (Flow.start (Body.ofCode code) entry, cache) (middle, known) →
    ∀ position state, middle.stateAt? position = some state →
      state.stack.length ≤ result.maxStack.toNat ∧ state.locals.length ≤ result.maxLocals.toNat
  executed : ∀ middle known, Flow.Goes context (Body.ofCode code)
      (Flow.start (Body.ofCode code) entry, cache) (middle, known) →
    ∀ position rest placed state exit, middle.pending = position :: rest →
      code.instructions[position]? = some placed → middle.stateAt? position = some state →
        state.execute context.owner (Body.ofCode code).made? placed = .ok exit →
          exit.stack.length ≤ result.maxStack.toNat
  ended : ∀ position placed state, code.instructions[position]? = some placed →
    flow.stateAt? position = some state →
      ∃ exit, state.execute context.owner (Body.ofCode code).made? placed = .ok exit ∧
        exit.stack.length ≤ result.maxStack.toNat
  arguments : ∀ type, Descriptor.methodType member.descriptor = .ok type →
    (if member.isStatic then 0 else 1) + type.parameterSlots ≤ result.maxLocals.toNat
  locals : ∀ position placed, code.instructions[position]? = some placed → code.Reached position →
    ∀ slot, placed.instruction.UsesLocal slot → slot < result.maxLocals.toNat
  thrown : result.handlers ≠ [] ∨
      (∃ position < code.instructions.length, ¬ code.Reached position) →
    1 ≤ result.maxStack.toNat

/-- If frames are computed for a body as one is read, then the maxima that it gets are enough for
whatever the analysis recorded or made on the way. -/
theorem recompute_suffices {major : UInt16} (proper : code.Proper depth)
    (done : code.recompute context major member cache = (.ok result, after)) :
    ∃ entry flow, FrameState.onEntry context.owner member = .ok entry ∧
      code.analyze context member stepLimit cache = (.ok (entry, flow), after) ∧
      Flow.Goes context (Body.ofCode code) (Flow.start (Body.ofCode code) entry, cache)
        (flow, after) ∧
      code.Suffices context member cache entry flow result := by
  obtain ⟨entry, flow, analysed, found⟩ := recomputeWithin_eq_ok_iff.1 done
  have onEntry := onEntry_of_analyze analysed
  have explored := proper.explored analysed
  obtain ⟨goes, empty⟩ := goes_of_analyze onEntry analysed
  have start : Flow.Watched context (context.hierarchy.view cache) code
      (Flow.start (Body.ofCode code) entry) := Flow.watched_start entry
  obtain ⟨-, watched, -, raises⟩ := goes.watched rfl start
  have idle (position : Nat) : position ∉ flow.pending := by simp [empty]
  obtain ⟨stack, locals, handlers⟩ := withFlow_maxima found
  have higher : flow.maxStack ≤ result.maxStack.toNat := stack ▸ code.le_stackNeed flow
  refine ⟨entry, flow, onEntry, analysed, goes, ?_⟩
  constructor
  case recorded =>
    intro middle known part position state at_
    obtain ⟨same, before, -⟩ := part.watched rfl start
    obtain ⟨low, short⟩ := Flow.le_of_recorded empty (goes.onwards empty part) same before at_
    exact ⟨low.trans higher, locals ▸ short⟩
  case executed =>
    intro middle known part position rest placed state exit pending here at_ done
    obtain ⟨same, before, -⟩ := part.watched rfl start
    rw [← getElem?_ofCode] at here
    exact (Flow.le_of_executed empty (goes.onwards empty part) same before pending here at_ done).trans
      higher
  case ended =>
    intro position placed state here at_
    rw [← getElem?_ofCode] at here
    obtain ⟨exit, done, seen⟩ := watched.noted position (idle position) placed state here at_
    exact ⟨exit, done, seen.exit.trans higher⟩
  case arguments =>
    intro type parsed
    rw [← FrameState.length_onEntry onEntry parsed, locals]
    exact raises.locals
  case locals =>
    intro position placed here reached slot uses
    obtain ⟨state, at_⟩ := Option.ne_none_iff_exists'.1 ((explored.reached position).2 reached)
    rw [← getElem?_ofCode] at here
    obtain ⟨exit, -, seen⟩ := watched.noted position (idle position) placed state here at_
    rw [locals]
    exact seen.locals slot uses
  case thrown =>
    rintro (handled | ⟨position, inside, unreached⟩)
    · -- An entry that is left covers an instruction that was reached.
      rw [handlers] at handled
      obtain ⟨piece, member⟩ := List.exists_mem_of_ne_nil _ handled
      obtain ⟨whole, listed, part⟩ := List.mem_flatMap.1 member
      obtain ⟨position, placed, here, reached, covers⟩ :=
        explored.start_of_piece proper listed part
      obtain ⟨state, at_⟩ := Option.ne_none_iff_exists'.1 ((explored.reached position).2 reached)
      rw [← getElem?_ofCode] at here
      obtain ⟨exit, -, seen⟩ := watched.noted position (idle position) placed state here at_
      exact (seen.thrown whole listed covers).trans higher
    · have dead := proper.deadRanges_of_unreached explored inside unreached
      rw [stack, stackNeed, if_neg (by simpa using dead)]
      exact Nat.le_max_right _ _

theorem skippingBody_suffices : ∃ result after entry flow,
    skippingBody.recompute ⟨⟨.empty, none⟩, "Main"⟩ 52 ⟨0x0008, "run", "(I)V", []⟩ .empty =
        (.ok result, after) ∧ result.maxStack = 1 ∧ result.maxLocals = 1 ∧
      skippingBody.Suffices ⟨⟨.empty, none⟩, "Main"⟩ ⟨0x0008, "run", "(I)V", []⟩ .empty entry flow
        result := by
  have computed : (skippingBody.recompute ⟨⟨.empty, none⟩, "Main"⟩ 52 ⟨0x0008, "run", "(I)V", []⟩
      .empty).1.toOption.map (fun result => (result.maxStack, result.maxLocals)) = some (1, 1) := by
    decide +kernel
  cases ran : skippingBody.recompute ⟨⟨.empty, none⟩, "Main"⟩ 52 ⟨0x0008, "run", "(I)V", []⟩ .empty with
  | mk outcome after =>
    rw [ran] at computed
    cases outcome with
    | error fault => cases computed
    | ok result =>
      obtain ⟨entry, flow, -, -, -, enough⟩ := recompute_suffices proper_skippingBody ran
      have maxima := Option.some.inj computed
      exact ⟨result, after, entry, flow, rfl, congrArg Prod.fst maxima, congrArg Prod.snd maxima,
        enough⟩

end Code

end ClassRenaming
