import ClassRenaming.Proofs.Maxima

/-!
The analysis of a body, one step at a time. A visit is taken apart into errands, each of which brings
one state to one instruction, so whatever is recorded or brought at any time of a run, also of one
that fails or goes on for ever, is there at a point that steps lead to. A step brings nothing new but
states that are executed, merged, or caught by a handler.
-/

namespace ClassRenaming

namespace Flow

inductive Errand where
  /-- Brings a state to the instruction at a position. -/
  | bring (state : FrameState) (position : Nat)
  /-- Brings what a handler catches to it, if it covers the instruction with these states. -/
  | handle (entry exit : FrameState) (handler : Handler)

/-- A point of a run, with the errands that are left of the visit to the instruction at an offset. -/
structure Point where
  flow : Flow
  cache : MetadataCache
  offset : Nat
  errands : List Errand

inductive Step (context : FrameContext) (body : Body) : Point → Point → Prop
  /-- The last instruction that became pending is executed. -/
  | visit {flow : Flow} {cache known : MetadataCache} {offset position : Nat} {rest targets : List Nat}
      {placed : Placed} {entry exit : FrameState} (pending : flow.pending = position :: rest)
      (here : body.instructions[position]? = some placed)
      (at_ : flow.stateAt? position = some entry)
      (done : entry.execute context.owner body.made? placed = .ok exit)
      (found : (successors body position placed).run cache = (.ok targets, known)) :
      Step context body ⟨flow, cache, offset, []⟩
        ⟨({ flow with pending := rest } : Flow).see (max entry.stack.length exit.stack.length)
            exit.locals.length, known, placed.offset,
          targets.map (.bring exit) ++ body.handlers.map (.handle entry exit)⟩
  /-- There is nothing to execute. -/
  | pass {flow : Flow} {cache : MetadataCache} {offset position : Nat} {rest : List Nat}
      (pending : flow.pending = position :: rest)
      (absent : body.instructions[position]? = none ∨ flow.stateAt? position = none) :
      Step context body ⟨flow, cache, offset, []⟩ ⟨{ flow with pending := rest }, cache, offset, []⟩
  | bring {flow after : Flow} {cache known : MetadataCache} {offset position : Nat}
      {state : FrameState} {later : List Errand}
      (arrives : (flow.arrive context.hierarchy offset state position).run cache =
        (.ok after, known)) :
      Step context body ⟨flow, cache, offset, .bring state position :: later⟩
        ⟨after, known, offset, later⟩
  /-- The handler is for other instructions. -/
  | skip {flow : Flow} {cache : MetadataCache} {offset : Nat} {entry exit : FrameState}
      {handler : Handler} {later : List Errand} (outside : ¬ handler.Covers offset) :
      Step context body ⟨flow, cache, offset, .handle entry exit handler :: later⟩
        ⟨flow, cache, offset, later⟩
  | handle {flow : Flow} {cache : MetadataCache} {offset target : Nat} {entry exit : FrameState}
      {handler : Handler} {later : List Errand} (covers : handler.Covers offset)
      (found : body.position? handler.target = some target) :
      Step context body ⟨flow, cache, offset, .handle entry exit handler :: later⟩
        ⟨flow.see 1 0, cache, offset, .bring (caught handler entry) target ::
          .bring (caught handler exit) target :: later⟩

abbrev Steps (context : FrameContext) (body : Body) : Point → Point → Prop :=
  Relation.ReflTransGen (Step context body)

section Visits

variable {context : FrameContext} {body : Body} {flow after : Flow} {cache known : MetadataCache}
  {offset : Nat} {entry exit : FrameState}

theorem steps_of_arrivals {targets : List Nat} {later : List Errand}
    (done : (targets.foldlM (fun (flow : Flow) target => flow.arrive context.hierarchy offset exit target)
      flow).run cache = (.ok after, known)) :
    Steps context body ⟨flow, cache, offset, targets.map (.bring exit) ++ later⟩
      ⟨after, known, offset, later⟩ := by
  induction targets generalizing flow cache with
  | nil =>
    cases done
    exact .refl
  | cons target rest ih =>
    rw [List.foldlM_cons] at done
    obtain ⟨middle, between, arrives, done⟩ := ExceptT.run_bind_eq_ok.1 done
    exact .head (.bring arrives) (ih done)

theorem steps_of_catchIn {handler : Handler} {later : List Errand}
    (done : (catchIn context.hierarchy body offset entry exit flow handler).run cache =
      (.ok after, known)) :
    Steps context body ⟨flow, cache, offset, .handle entry exit handler :: later⟩
      ⟨after, known, offset, later⟩ := by
  unfold catchIn at done
  split at done
  · next outside =>
    cases done
    refine .single (.skip fun covers => ?_)
    have := covers.1
    have := covers.2
    omega
  · next inside =>
    split at done
    · cases done
    · next target found =>
      obtain ⟨middle, between, first, second⟩ := ExceptT.run_bind_eq_ok.1 done
      exact .head (.handle ⟨by omega, by omega⟩ found) (.head (.bring first) (.single (.bring second)))

theorem steps_of_handlers {handlers : List Handler}
    (done : (handlers.foldlM (catchIn context.hierarchy body offset entry exit) flow).run cache =
      (.ok after, known)) :
    Steps context body ⟨flow, cache, offset, handlers.map (.handle entry exit)⟩
      ⟨after, known, offset, []⟩ := by
  induction handlers generalizing flow cache with
  | nil =>
    cases done
    exact .refl
  | cons handler rest ih =>
    rw [List.foldlM_cons] at done
    obtain ⟨middle, between, first, done⟩ := ExceptT.run_bind_eq_ok.1 done
    exact (steps_of_catchIn first).trans (ih done)

theorem steps_of_visits {before behind : Flow × MetadataCache}
    (visits : Visits context body before behind) (offset : Nat) :
    ∃ last, Steps context body ⟨before.1, before.2, offset, []⟩ ⟨behind.1, behind.2, last, []⟩ := by
  obtain ⟨flow, cache⟩ := before
  obtain ⟨after, known⟩ := behind
  obtain ⟨position, rest, pending, done⟩ := visits
  unfold visit at done
  split at done
  · next placed entry here at_ =>
    split at done
    · cases done
    · next exit executed =>
      obtain ⟨targets, middle, found, done⟩ := ExceptT.run_bind_eq_ok.1 done
      obtain ⟨flow', between, arrivals, handlers⟩ := ExceptT.run_bind_eq_ok.1 done
      refine ⟨placed.offset, .head (.visit pending here at_ executed found) ?_⟩
      exact (steps_of_arrivals arrivals).trans (steps_of_handlers handlers)
  · next idle =>
    cases done
    refine ⟨offset, .single (.pass pending ?_)⟩
    by_contra some
    push Not at some
    obtain ⟨placed, here⟩ := Option.ne_none_iff_exists'.1 some.1
    obtain ⟨entry, at_⟩ := Option.ne_none_iff_exists'.1 some.2
    exact idle placed entry here at_

theorem steps_of_goes {first last : Flow × MetadataCache} (goes : Goes context body first last)
    (offset : Nat) :
    ∃ stop, Steps context body ⟨first.1, first.2, offset, []⟩ ⟨last.1, last.2, stop, []⟩ := by
  induction goes with
  | refl => exact ⟨offset, .refl⟩
  | tail _ visits ih =>
    obtain ⟨middle, front⟩ := ih
    obtain ⟨stop, back⟩ := steps_of_visits visits middle
    exact ⟨stop, front.trans back⟩

end Visits

inductive Errand.Carries : Errand → FrameState → Prop
  | bring (state : FrameState) (position : Nat) : Carries (.bring state position) state
  | entry (entry exit : FrameState) (handler : Handler) : Carries (.handle entry exit handler) entry
  | exit (entry exit : FrameState) (handler : Handler) : Carries (.handle entry exit handler) exit

def Point.Holds (point : Point) (state : FrameState) : Prop :=
  (∃ position, point.flow.stateAt? position = some state) ∨
    ∃ errand ∈ point.errands, errand.Carries state

theorem arrive_eq_ok {hierarchy : Hierarchy} {flow after : Flow} {cache known : MetadataCache}
    {offset position : Nat} {incoming : FrameState}
    (done : (flow.arrive hierarchy offset incoming position).run cache = (.ok after, known)) :
    flow.stateAt? position = none ∧ after.states = (flow.record position incoming).states ∨
      ∃ recorded merged, flow.stateAt? position = some recorded ∧
        hierarchy.mergeStates recorded incoming cache = (merged, known) ∧
          after.states = (flow.record position merged).states := by
  unfold arrive at done
  split at done
  · next fresh =>
    cases done
    exact .inl ⟨fresh, states_mark _ _⟩
  · next recorded at_ =>
    split at done
    · cases done
    · obtain ⟨merged, between, merges, done⟩ := ExceptT.run_bind_eq_ok.1 done
      cases merges
      cases done
      refine .inr ⟨recorded, _, at_, rfl, ?_⟩
      split
      · rfl
      · exact states_mark _ _

section Steps

variable {context : FrameContext} {body : Body} {before after : Point} {state : FrameState}

theorem Step.holds (step : Step context body before after) (held : after.Holds state) :
    before.Holds state ∨
      (∃ position placed entry, body.instructions[position]? = some placed ∧
        before.flow.stateAt? position = some entry ∧
          entry.execute context.owner body.made? placed = .ok state) ∨
      (∃ recorded incoming cache, before.Holds recorded ∧ before.Holds incoming ∧
        (context.hierarchy.mergeStates recorded incoming cache).1 = state) ∨
      ∃ handler other, before.Holds other ∧ state = caught handler other := by
  cases step with
  | @visit flow cache known offset position rest targets placed entry exit pending here at_ done found =>
    rcases held with recorded | ⟨errand, listed, carries⟩
    · exact .inl (.inl recorded)
    · rcases List.mem_append.1 listed with brought | handed
      · obtain ⟨target, -, rfl⟩ := List.mem_map.1 brought
        cases carries
        exact .inr (.inl ⟨position, placed, entry, here, at_, done⟩)
      · obtain ⟨handler, -, rfl⟩ := List.mem_map.1 handed
        cases carries with
        | entry => exact .inl (.inl ⟨position, at_⟩)
        | exit => exact .inr (.inl ⟨position, placed, entry, here, at_, done⟩)
  | pass pending absent =>
    exact .inl held
  | @bring flow after cache known offset position incoming later arrives =>
    have brought : Point.Holds ⟨flow, cache, offset, .bring incoming position :: later⟩ incoming :=
      .inr ⟨_, List.mem_cons_self, .bring _ _⟩
    rcases held with ⟨other, recorded⟩ | ⟨errand, listed, carries⟩
    · rcases arrive_eq_ok arrives with ⟨-, states⟩ | ⟨old, merged, at_, merges, states⟩
      · rw [stateAt?, states] at recorded
        rcases stateAt?_of_record recorded with ⟨-, rfl⟩ | kept
        · exact .inl brought
        · exact .inl (.inl ⟨other, kept⟩)
      · rw [stateAt?, states] at recorded
        rcases stateAt?_of_record recorded with ⟨-, rfl⟩ | kept
        · exact .inr (.inr (.inl ⟨old, incoming, cache, .inl ⟨position, at_⟩, brought, by rw [merges]⟩))
        · exact .inl (.inl ⟨other, kept⟩)
    · exact .inl (.inr ⟨errand, List.mem_cons_of_mem _ listed, carries⟩)
  | skip outside =>
    rcases held with recorded | ⟨errand, listed, carries⟩
    · exact .inl (.inl recorded)
    · exact .inl (.inr ⟨errand, List.mem_cons_of_mem _ listed, carries⟩)
  | @handle flow cache offset target entry exit handler later covers found =>
    rcases held with recorded | ⟨errand, listed, carries⟩
    · exact .inl (.inl recorded)
    · rcases List.mem_cons.1 listed with rfl | listed
      · cases carries
        exact .inr (.inr (.inr ⟨handler, entry, .inr ⟨_, List.mem_cons_self, .entry _ _ _⟩, rfl⟩))
      · rcases List.mem_cons.1 listed with rfl | listed
        · cases carries
          exact .inr (.inr (.inr ⟨handler, exit, .inr ⟨_, List.mem_cons_self, .exit _ _ _⟩, rfl⟩))
        · exact .inl (.inr ⟨errand, List.mem_cons_of_mem _ listed, carries⟩)

theorem Step.kept (step : Step context body before after) {position : Nat} {old : FrameState}
    (at_ : before.flow.stateAt? position = some old) :
    after.flow.stateAt? position = some old ∨
      ∃ incoming cache, after.flow.stateAt? position =
        some (context.hierarchy.mergeStates old incoming cache).1 := by
  cases step with
  | visit | pass | skip | handle => exact .inl at_
  | @bring flow after cache known offset target incoming later arrives =>
    rcases arrive_eq_ok arrives with ⟨fresh, states⟩ | ⟨recorded, merged, there, merges, states⟩
    · have elsewhere : target ≠ position := by
        rintro rfl
        rw [fresh] at at_
        cases at_
      refine .inl ?_
      rw [stateAt?, states, record, Array.getElem?_setIfInBounds_ne elsewhere]
      exact at_
    · have inside : target < flow.states.size := by
        by_contra outside
        rw [stateAt?, Array.getElem?_eq_none (by omega)] at there
        cases there
      have entries := stateAt?_record inside merged position
      by_cases same : position = target
      · subst same
        rw [there] at at_
        cases at_
        refine .inr ⟨incoming, cache, ?_⟩
        rw [if_pos rfl] at entries
        rw [merges, stateAt?, states]
        exact entries
      · refine .inl ?_
        rw [if_neg same] at entries
        rw [stateAt?, states]
        exact entries.trans at_

end Steps

end Flow

namespace Code

/-- A point that the analysis of the body of a method passes. -/
def Passes (context : FrameContext) (member : Member) (code : Code) (cache : MetadataCache)
    (point : Flow.Point) : Prop :=
  ∃ entry, FrameState.onEntry context.owner member = .ok entry ∧
    Flow.Steps context (Body.ofCode code) ⟨.start (Body.ofCode code) entry, cache, 0, []⟩ point

section Passes

variable {context : FrameContext} {member : Member} {code : Code} {cache after : MetadataCache}
  {entry : FrameState} {flow : Flow}

theorem passes_of_goes (onEntry : FrameState.onEntry context.owner member = .ok entry)
    (goes : Flow.Goes context (Body.ofCode code) (.start (Body.ofCode code) entry, cache)
      (flow, after)) : ∃ offset, code.Passes context member cache ⟨flow, after, offset, []⟩ := by
  obtain ⟨offset, leads⟩ := Flow.steps_of_goes goes 0
  exact ⟨offset, entry, onEntry, leads⟩

theorem passes_of_analyze {steps : Nat}
    (ended : code.analyze context member steps cache = (.ok (entry, flow), after)) :
    ∃ offset, code.Passes context member cache ⟨flow, after, offset, []⟩ := by
  have onEntry := onEntry_of_analyze ended
  exact passes_of_goes onEntry (goes_of_analyze onEntry ended).1

end Passes

end Code

end ClassRenaming
