import ClassRenaming.Proofs.PostFixpoint
import Mathlib.Algebra.Ring.Nat
import Mathlib.Data.Prod.Lex
import Mathlib.Order.WellFounded

/-!
When an analysis ends. If names have a height that falls whenever a merge puts another name in the
place of one, then every mark of an instruction as pending lowers a potential: the number of
instructions without a state, then the number of `null` slots, then the sum of heights.
-/

namespace ClassRenaming

open FrameState

/-- Merging puts only names of less height in the place of others. -/
def Lowers (hierarchy : Hierarchy) (table : String → TypeMetadata) (height : String → Nat) : Prop :=
  ∀ a b, Ensures hierarchy table (hierarchy.mergeReferences a b)
    fun merged => merged = a ∨ height merged < height a

namespace VerificationType

def nulls : VerificationType → Nat
  | null => 1
  | _ => 0

def weight (height : String → Nat) : VerificationType → Nat
  | top | null => 0
  | object name => height name + 1
  | _ => 1

end VerificationType

def nullsOf (slots : List VerificationType) : Nat := (slots.map VerificationType.nulls).sum

def weightOf (height : String → Nat) (slots : List VerificationType) : Nat :=
  (slots.map (VerificationType.weight height)).sum

theorem nullsOf_extend (length : Nat) (slots : List VerificationType) :
    nullsOf (extend length slots) = nullsOf slots := by
  simp [nullsOf, extend, VerificationType.nulls]

theorem weightOf_extend (height : String → Nat) (length : Nat) (slots : List VerificationType) :
    weightOf height (extend length slots) = weightOf height slots := by
  simp [weightOf, extend, VerificationType.weight]

theorem extend_cons (length : Nat) (slot : VerificationType) (slots : List VerificationType) :
    extend (length + 1) (slot :: slots) = slot :: extend length slots := by
  simp [extend]

theorem extend_self {length : Nat} {slots : List VerificationType} (same : slots.length = length) :
    extend length slots = slots := by
  simp [extend, same]

def Drops (nulls weight nulls' weight' : Nat) : Prop :=
  nulls' < nulls ∨ nulls' = nulls ∧ weight' < weight

section Slots

variable {hierarchy : Hierarchy} {table : String → TypeMetadata} {height : String → Nat}

theorem lowers_mergeTypes (lowers : Lowers hierarchy table height) (a b : VerificationType) :
    Ensures hierarchy table (hierarchy.mergeTypes a b) fun merged =>
      merged = a ∨ Drops a.nulls (a.weight height) merged.nulls (merged.weight height) := by
  unfold Hierarchy.mergeTypes
  split
  · exact .pure (.inl rfl)
  · next distinct =>
    split
    · exact .pure (.inr (.inl Nat.zero_lt_one))
    · exact .pure (.inl rfl)
    · next x y =>
      refine .bind (lowers x y) fun merged found => .pure ?_
      rcases found with rfl | less
      · exact .inl rfl
      · exact .inr (.inr ⟨rfl, Nat.succ_lt_succ less⟩)
    · refine .pure ?_
      cases a with
      | top => exact .inl rfl
      | null => exact .inr (.inl Nat.zero_lt_one)
      | object name => exact .inr (.inr ⟨rfl, Nat.succ_pos _⟩)
      | _ => exact .inr (.inr ⟨rfl, Nat.zero_lt_one⟩)

theorem ensures_mergeTypes_top (b : VerificationType) :
    Ensures hierarchy table (hierarchy.mergeTypes .top b) (· = .top) := by
  have only : hierarchy.mergeTypes .top b = pure .top := by cases b <;> rfl
  rw [only]
  exact .pure rfl

theorem ensures_mapM_mergeTypes_top (others : List VerificationType) :
    Ensures hierarchy table (others.mapM (hierarchy.mergeTypes .top)) fun merged =>
      merged = extend merged.length [] := by
  induction others with
  | nil =>
    rw [List.mapM_nil]
    exact .pure rfl
  | cons b rest ih =>
    rw [List.mapM_cons]
    refine .bind (ensures_mergeTypes_top b) ?_
    rintro _ rfl
    refine .bind ih fun merged same => .pure ?_
    simp only [extend, List.nil_append, List.length_nil, Nat.sub_zero, List.length_cons,
      List.replicate_succ] at same ⊢
    rw [← same]

theorem lowers_mergeSlots (lowers : Lowers hierarchy table height) (a b : List VerificationType) :
    Ensures hierarchy table (hierarchy.mergeSlots a b) fun merged =>
      merged = extend merged.length a ∨
        Drops (nullsOf a) (weightOf height a) (nullsOf merged) (weightOf height merged) := by
  induction a generalizing b with
  | nil => exact .mono (ensures_mapM_mergeTypes_top b) fun merged same => .inl same
  | cons x xs ih =>
    refine .bind (lowers_mergeTypes lowers x (b.head?.getD .top)) fun z here => ?_
    refine .bind (ih b.tail) fun zs there => .pure ?_
    rw [List.length_cons, extend_cons]
    simp only [nullsOf, weightOf, List.map_cons, List.sum_cons, Drops] at here there ⊢
    rcases here with rfl | here <;> rcases there with same | there
    · exact .inl (by rw [← same])
    · refine .inr ?_
      omega
    · have nulls := nullsOf_extend zs.length xs
      have weight := weightOf_extend height zs.length xs
      rw [← same] at nulls weight
      simp only [nullsOf, weightOf] at nulls weight
      refine .inr ?_
      omega
    · refine .inr ?_
      omega

end Slots

namespace FrameState

def nulls (state : FrameState) : Nat := nullsOf state.locals + nullsOf state.stack

def weight (height : String → Nat) (state : FrameState) : Nat :=
  weightOf height state.locals + weightOf height state.stack

theorem nulls_reserve (length : Nat) (state : FrameState) :
    (state.reserve length).nulls = state.nulls := by
  simp only [nulls, reserve, nullsOf_extend]

theorem weight_reserve (height : String → Nat) (length : Nat) (state : FrameState) :
    (state.reserve length).weight height = state.weight height := by
  simp only [weight, reserve, weightOf_extend]

end FrameState

section States

variable {hierarchy : Hierarchy} {table : String → TypeMetadata} {height : String → Nat}

theorem lowers_mergeStates (lowers : Lowers hierarchy table height) {recorded incoming : FrameState}
    (same : recorded.stack.length = incoming.stack.length) :
    Ensures hierarchy table (hierarchy.mergeStates recorded incoming) fun merged =>
      merged = recorded.reserve merged.locals.length ∨
        Drops recorded.nulls (recorded.weight height) merged.nulls (merged.weight height) := by
  refine .bind (lowers_mergeSlots lowers recorded.locals incoming.locals) fun locals left => ?_
  refine .bind ((lowers_mergeSlots lowers recorded.stack incoming.stack).and
    (ensures_mergeSlots recorded.stack incoming.stack)) ?_
  rintro stack ⟨right, length, -⟩
  refine .pure ?_
  rw [length, ← same, Nat.max_self, extend_self rfl] at right
  simp only [Drops, FrameState.nulls, FrameState.weight] at left right ⊢
  rcases left with left | left <;> rcases right with rfl | right
  · refine .inl ?_
    rw [reserve, ← left]
  · have nulls := nullsOf_extend locals.length recorded.locals
    have weight := weightOf_extend height locals.length recorded.locals
    rw [← left] at nulls weight
    refine .inr ?_
    omega
  · refine .inr ?_
    omega
  · refine .inr ?_
    omega

end States

theorem sum_map_set {α : Type} (f : α → Nat) {items : List α} {position : Nat} {old : α}
    (at_ : items[position]? = some old) (new : α) :
    ((items.set position new).map f).sum + f old = (items.map f).sum + f new := by
  induction items generalizing position with
  | nil => cases at_
  | cons item rest ih =>
    cases position with
    | zero =>
      cases at_
      simp only [List.set_cons_zero, List.map_cons, List.sum_cons]
      omega
    | succ position =>
      have later := ih at_
      simp only [List.set_cons_succ, List.map_cons, List.sum_cons]
      omega

namespace Flow

def total (f : Option FrameState → Nat) (flow : Flow) : Nat := (flow.states.toList.map f).sum

theorem total_record {flow : Flow} {position : Nat} {old : Option FrameState}
    (at_ : flow.states[position]? = some old) (f : Option FrameState → Nat) (state : FrameState) :
    (flow.record position state).total f + f old = flow.total f + f (some state) := by
  rw [← Array.getElem?_toList] at at_
  have sum := sum_map_set f at_ (some state)
  rw [← Array.toList_setIfInBounds] at sum
  exact sum

theorem total_mark (f : Option FrameState → Nat) (flow : Flow) (position : Nat) :
    (flow.mark position).total f = flow.total f := by
  rw [total, states_mark, total]

/-- What cannot fall for ever: the instructions without a state, the nulls, the heights. -/
def potential (height : String → Nat) (flow : Flow) : ℕ ×ₗ ℕ ×ₗ ℕ :=
  toLex (flow.total fun state => if state.isNone then 1 else 0,
    toLex (flow.total fun state => (state.map FrameState.nulls).getD 0,
      flow.total fun state => (state.map (FrameState.weight height)).getD 0))

theorem potential_mark (height : String → Nat) (flow : Flow) (position : Nat) :
    (flow.mark position).potential height = flow.potential height := by
  simp only [potential, total_mark]

/-- Nothing happened but for local variables that hold nothing, or the potential fell. -/
structure Sinks (height : String → Nat) (before after : Flow) : Prop where
  size : after.states.size = before.states.size
  less : after.potential height < before.potential height ∨
    after.potential height = before.potential height ∧ after.pending = before.pending

namespace Sinks

variable {height : String → Nat} {a b c : Flow}

theorem refl (height : String → Nat) (flow : Flow) : Sinks height flow flow :=
  ⟨rfl, .inr ⟨rfl, rfl⟩⟩

theorem trans (first : Sinks height a b) (second : Sinks height b c) : Sinks height a c := by
  refine ⟨second.size.trans first.size, ?_⟩
  rcases first.less with low | ⟨same, idle⟩ <;> rcases second.less with lower | ⟨still, quiet⟩
  · exact .inl (lower.trans low)
  · exact .inl (still ▸ low)
  · exact .inl (same ▸ lower)
  · exact .inr ⟨still.trans same, quiet.trans idle⟩

theorem see (height : String → Nat) (flow : Flow) (stack locals : Nat) :
    Sinks height flow (flow.see stack locals) := ⟨rfl, .inr ⟨rfl, rfl⟩⟩

end Sinks

section Steps

variable {hierarchy : Hierarchy} {table : String → TypeMetadata} {height : String → Nat}
  {flow : Flow}

theorem size_record (flow : Flow) (position : Nat) (state : FrameState) :
    (flow.record position state).states.size = flow.states.size := Array.size_setIfInBounds

theorem sinks_first {position : Nat} (at_ : flow.states[position]? = some none)
    (incoming : FrameState) : Sinks height flow ((flow.record position incoming).mark position) := by
  refine ⟨by rw [states_mark, size_record], .inl ?_⟩
  have fewer := total_record at_ (fun state => if state.isNone then 1 else 0) incoming
  rw [potential_mark, potential, potential, Prod.Lex.toLex_lt_toLex]
  refine .inl ?_
  simp only [Option.isNone_none, Option.isNone_some, if_true, Bool.false_eq_true, if_false]
    at fewer ⊢
  omega

theorem total_merge (height : String → Nat) {position : Nat} {recorded : FrameState}
    (at_ : flow.states[position]? = some (some recorded)) (merged : FrameState) :
    (flow.record position merged).total (fun state => if state.isNone then 1 else 0) =
        flow.total (fun state => if state.isNone then 1 else 0) ∧
      (flow.record position merged).total (fun state => (state.map FrameState.nulls).getD 0) +
          recorded.nulls =
        flow.total (fun state => (state.map FrameState.nulls).getD 0) + merged.nulls ∧
      (flow.record position merged).total
          (fun state => (state.map (FrameState.weight height)).getD 0) + recorded.weight height =
        flow.total (fun state => (state.map (FrameState.weight height)).getD 0) +
          merged.weight height :=
  ⟨total_record at_ (fun state => if state.isNone then 1 else 0) merged,
    total_record at_ (fun state => (state.map FrameState.nulls).getD 0) merged,
    total_record at_ (fun state => (state.map (FrameState.weight height)).getD 0) merged⟩

theorem sinks_reserve {position length : Nat} {recorded merged : FrameState}
    (at_ : flow.states[position]? = some (some recorded)) (same : merged = recorded.reserve length) :
    Sinks height flow (flow.record position merged) := by
  obtain ⟨reached, nulls, weight⟩ := total_merge height at_ merged
  have eqNulls := congrArg FrameState.nulls same
  have eqWeight := congrArg (FrameState.weight height) same
  rw [FrameState.nulls_reserve] at eqNulls
  rw [FrameState.weight_reserve] at eqWeight
  rw [eqNulls, Nat.add_right_cancel_iff] at nulls
  rw [eqWeight, Nat.add_right_cancel_iff] at weight
  refine ⟨size_record _ _ _, .inr ⟨?_, rfl⟩⟩
  rw [potential, potential, reached, nulls, weight]

theorem sinks_drop {position : Nat} {recorded merged : FrameState}
    (at_ : flow.states[position]? = some (some recorded))
    (drops : Drops recorded.nulls (recorded.weight height) merged.nulls (merged.weight height)) :
    Sinks height flow ((flow.record position merged).mark position) := by
  obtain ⟨reached, nulls, weight⟩ := total_merge height at_ merged
  refine ⟨by rw [states_mark, size_record], .inl ?_⟩
  rw [potential_mark, potential, potential, Prod.Lex.toLex_lt_toLex]
  refine .inr ⟨reached, ?_⟩
  rw [Prod.Lex.toLex_lt_toLex]
  simp only [Drops] at drops
  dsimp only
  omega

theorem sinks_arrive (lowers : Lowers hierarchy table height) {offset position : Nat}
    {incoming : FrameState} (inside : position < flow.states.size) :
    Gives hierarchy table IsFault (flow.arrive hierarchy offset incoming position)
      (Sinks height flow) := by
  have old : flow.states[position]? = some (flow.stateAt? position) := by
    rw [stateAt?, Array.getElem?_eq_getElem inside, Option.join_some]
  refine .arrive (fun fresh => sinks_first (fresh ▸ old) incoming) isFault_heightsDiffer
    fun recorded at_ level => (lowers_mergeStates lowers level).mono fun merged found => ?_
  split
  · next silent => exact sinks_reserve (at_ ▸ old) silent
  · next news => exact sinks_drop (at_ ▸ old) (found.resolve_left news)

end Steps

section Visits

variable {context : FrameContext} {table : String → TypeMetadata} {height : String → Nat}
  {code : Code} {flow : Flow}

theorem sinks_catchIn (lowers : Lowers context.hierarchy table height) {offset : Nat}
    {entry exit : FrameState} (handler : Handler)
    (size : flow.states.size = (Body.ofCode code).instructions.size) :
    Gives context.hierarchy table IsFault
      (catchIn context.hierarchy (Body.ofCode code) offset entry exit flow handler)
      (Sinks height flow) := by
  refine .catchIn (fun _ => .refl height flow) nofun fun target _ found => ?_
  have seen := Sinks.see height flow 1 0
  have inside : target < (flow.see 1 0).states.size := by
    rw [seen.size, size]
    exact inside_of_position? found
  refine .bind (sinks_arrive lowers inside) fun middle first => ?_
  refine .mono (sinks_arrive lowers ?_) fun after second => seen.trans (first.trans second)
  rw [first.size]
  exact inside

theorem sinks_visit (lowers : Lowers context.hierarchy table height) (position : Nat)
    (size : flow.states.size = (Body.ofCode code).instructions.size) :
    Gives context.hierarchy table IsFault (visit context (Body.ofCode code) position flow)
      (Sinks height flow) := by
  refine .visit (fun _ => .refl height flow) (fun _ _ _ _ _ failed => isFault_of_execute failed)
    fun placed entry exit _ _ _ => ?_
  have seen := Sinks.see height flow (max entry.stack.length exit.stack.length) exit.locals.length
  refine .bind (gives_successors position placed) fun targets reaches => ?_
  refine .bind (.foldlM (fun target member before sinks => ?_) seen) fun middle first => ?_
  · refine (sinks_arrive lowers ?_).mono fun after step => sinks.trans step
    rw [sinks.size, size]
    exact reaches.inside target member
  · refine .foldlM (fun handler _ before sinks => ?_) first
    exact (sinks_catchIn lowers handler (sinks.size.trans size)).mono fun after step =>
      sinks.trans step

end Visits

/-- With enough steps a computation comes to a result or to a fault of the code. -/
def Ends {α : Type} (analysis : Nat → Analysis α) (cache : MetadataCache) : Prop :=
  ∃ bound, ∀ steps ≥ bound, ∀ error,
    ((analysis steps).run cache).1 = .error error → IsFault error.fault

section Endings

variable {context : FrameContext} {table : String → TypeMetadata} {height : String → Nat}
  {code : Code}

theorem run_idle {flow : Flow} (idle : flow.pending = []) (steps : Nat) :
    run context (Body.ofCode code) steps flow = pure flow := by
  cases steps with
  | zero => rw [run, idle, List.isEmpty_nil, if_pos rfl]
  | succ steps => rw [run, idle]

theorem run_visit {flow : Flow} {position : Nat} {rest : List Nat}
    (pending : flow.pending = position :: rest) (steps : Nat) :
    run context (Body.ofCode code) (steps + 1) flow =
      visit context (Body.ofCode code) position { flow with pending := rest } >>=
        run context (Body.ofCode code) steps := by
  rw [run, pending]

theorem ends_run (lowers : Lowers context.hierarchy table height) (flow : Flow)
    (cache : MetadataCache) (same : context.hierarchy.view cache = table)
    (size : flow.states.size = (Body.ofCode code).instructions.size) :
    Ends (fun steps => run context (Body.ofCode code) steps flow) cache := by
  -- A visit takes one instruction from the pending ones, and adds others only if the potential falls.
  induction measure : toLex (flow.potential height, flow.pending.length)
    using WellFoundedLT.induction generalizing flow cache with
  | ind bound ih =>
    subst measure
    cases pending : flow.pending with
    | nil =>
      refine ⟨0, fun steps _ error failed => ?_⟩
      dsimp only at failed
      rw [run_idle pending] at failed
      cases failed
    | cons position rest =>
      have visited : Gives context.hierarchy table IsFault
          (visit context (Body.ofCode code) position { flow with pending := rest })
          (Sinks height { flow with pending := rest }) := sinks_visit lowers position size
      obtain ⟨found, still⟩ := visited cache same
      cases done : (visit context (Body.ofCode code) position { flow with pending := rest }).run
          cache with
      | mk result after =>
        rw [done] at found still
        cases result with
        | error fault =>
          refine ⟨1, fun steps more error failed => ?_⟩
          obtain ⟨steps, rfl⟩ := Nat.exists_eq_add_of_le' more
          dsimp only at failed
          rw [run_visit pending, ExceptT.run_bind_error done] at failed
          cases failed
          exact found
        | ok middle =>
          have lower : toLex (middle.potential height, middle.pending.length) <
              toLex (flow.potential height, flow.pending.length) := by
            rw [Prod.Lex.toLex_lt_toLex]
            rcases found.less with less | ⟨equal, idle⟩
            · exact .inl less
            · refine .inr ⟨equal, ?_⟩
              rw [idle, pending]
              exact Nat.lt_succ_self _
          obtain ⟨enough, ends⟩ := ih _ lower middle after still (found.size.trans size) rfl
          refine ⟨enough + 1, fun steps more error failed => ?_⟩
          obtain ⟨steps, rfl⟩ : ∃ fewer, steps = fewer + 1 := ⟨steps - 1, by omega⟩
          dsimp only at failed
          rw [run_visit pending, ExceptT.run_bind_ok done] at failed
          exact ends steps (by omega) error failed

end Endings

end Flow

theorem FrameState.isFault_of_onEntry {owner : String} {member : Member} {fault : FrameFault}
    (failed : onEntry owner member = .error fault) : Flow.IsFault fault := by
  unfold onEntry at failed
  cases read : Descriptor.methodType member.descriptor with
  | error cause =>
    rw [read] at failed
    cases failed
    exact nofun
  | ok type =>
    rw [read] at failed
    cases failed

theorem Code.ends_analyze {context : FrameContext} {table : String → TypeMetadata}
    {height : String → Nat} (lowers : Lowers context.hierarchy table height) (member : Member)
    (code : Code) (cache : MetadataCache) (same : context.hierarchy.view cache = table) :
    Flow.Ends (code.analyze context member) cache := by
  cases known : FrameState.onEntry context.owner member with
  | error fault =>
    refine ⟨0, fun steps _ error failed => ?_⟩
    rw [analyze, known] at failed
    cases failed
    exact FrameState.isFault_of_onEntry known
  | ok entry =>
    have start : Flow.Consistent context table code _ := Flow.consistent_start entry
    obtain ⟨bound, ends⟩ := Flow.ends_run lowers (Flow.start (Body.ofCode code) entry) cache same
      start.size
    refine ⟨bound, fun steps more error failed => ?_⟩
    rw [analyze, known] at failed
    dsimp only at failed
    cases done : (Flow.run context (Body.ofCode code) steps
        (Flow.start (Body.ofCode code) entry)).run cache with
    | mk result after =>
      cases result with
      | error fault =>
        rw [ExceptT.run_bind_error done] at failed
        cases failed
        exact ends steps more _ (congrArg Prod.fst done)
      | ok flow =>
        rw [ExceptT.run_bind_ok done] at failed
        cases failed

end ClassRenaming
