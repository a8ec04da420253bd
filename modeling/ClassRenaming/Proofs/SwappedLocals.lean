import ClassRenaming.Proofs.NameHeights
import Mathlib.Tactic.IntervalCases

/-!
An analysis without an end. Where two classes are superclasses of each other, what the first has in
common with the second is the second, and the other way round. A loop that swaps two local variables
of these types swaps them in every state it comes back to, so each arrival is news.
-/

namespace ClassRenaming

open FrameState VerificationType

theorem Swaps.symm {table : String → TypeMetadata} {a b : String} (swaps : Swaps table a b) :
    Swaps table b a where
  distinct := swaps.distinct.symm
  plain := swaps.plain.symm
  classes := swaps.classes.symm
  up := swaps.back
  back := swaps.up

section Merges

variable {hierarchy : Hierarchy} {table : String → TypeMetadata} {a b : String}

theorem ancestorIn_swaps {cache : MetadataCache} (same : hierarchy.view cache = table)
    (swaps : Swaps table a b) : ancestorIn table (hierarchy.steps cache) a b = b := by
  rw [ancestorIn_of_ne table swaps.distinct, swaps.classes.1, swaps.classes.2]
  have shared := mem_superclassesIn same swaps.up
  have first : ∃ rest, superclassesIn table (hierarchy.steps cache) [] (some b) = b :: rest := by
    obtain ⟨steps, eq⟩ := Nat.exists_eq_add_of_lt (declared_lt_steps hierarchy cache).1
    rw [eq, superclassesIn_succ, if_neg List.not_mem_nil]
    exact ⟨_, rfl⟩
  obtain ⟨rest, eq⟩ := first
  dsimp only
  rw [firstShared, eq, List.find?_cons_of_pos (by simpa using shared), Option.getD_some]

theorem ensures_mergeTypes_swaps (swaps : Swaps table a b) :
    Ensures hierarchy table (hierarchy.mergeTypes (.object a) (.object b)) (· = .object b) := by
  have differ : VerificationType.object a ≠ .object b := fun same =>
    swaps.distinct (VerificationType.object.inj same)
  have plain : (splitArray a.toList).1 = 0 ∧ (splitArray b.toList).1 = 0 := swaps.plain
  rw [Hierarchy.mergeTypes, if_neg differ, Hierarchy.mergeReferences, if_pos plain]
  refine .bind (ensures_commonAncestor a b) ?_
  rintro merged ⟨cache, same, rfl⟩
  rw [ancestorIn_swaps same swaps]
  exact .pure rfl

def pick (a b : String) : Bool → VerificationType
  | true => .object a
  | false => .object b

theorem ensures_mergeSlots_pick (swaps : Swaps table a b) (slots : List Bool) :
    Ensures hierarchy table (hierarchy.mergeSlots (slots.map (pick a b)) (slots.map (pick b a)))
      (· = slots.map (pick b a)) := by
  induction slots with
  | nil => exact .pure rfl
  | cons slot rest ih =>
    have first : Ensures hierarchy table (hierarchy.mergeTypes (pick a b slot) (pick b a slot))
        (· = pick b a slot) := by
      cases slot with
      | true => exact ensures_mergeTypes_swaps swaps
      | false => exact ensures_mergeTypes_swaps swaps.symm
    refine .bind first ?_
    rintro _ rfl
    refine .bind ih ?_
    rintro _ rfl
    exact .pure rfl

end Merges

/-- Two local variables get a value of each class, and are swapped for ever. -/
def swapBody (a b : String) : Code where
  maxStack := 2
  maxLocals := 2
  instructions := [⟨0, .simple 0x01⟩, ⟨1, .type Opcode.checkcast a⟩, ⟨4, .simple 0x4B⟩,
    ⟨5, .simple 0x01⟩, ⟨6, .type Opcode.checkcast b⟩, ⟨9, .simple 0x4C⟩,
    ⟨10, .simple 0x2A⟩, ⟨11, .simple 0x2B⟩, ⟨12, .simple 0x4B⟩, ⟨13, .simple 0x4C⟩,
    ⟨14, .jump Opcode.goto 10⟩]
  length := 17
  handlers := []
  attributes := []

def swapMethod : Member := ⟨0x0008, "run", "()V", []⟩

namespace Swapping

def loopState (a b : String) (position : Nat) : FrameState :=
  match position with
  | 6 => ⟨[true, false].map (pick a b), [].map (pick a b)⟩
  | 7 => ⟨[true, false].map (pick a b), [true].map (pick a b)⟩
  | 8 => ⟨[true, false].map (pick a b), [false, true].map (pick a b)⟩
  | 9 => ⟨[false, false].map (pick a b), [true].map (pick a b)⟩
  | _ => ⟨[false, true].map (pick a b), [].map (pick a b)⟩

/-- The loop as it is before a visit of an instruction: the ones before it and itself know the order
that came in last, the others the order before. -/
def flow (first second a b : String) (position : Nat) : Flow where
  states := #[some ⟨[], []⟩, some ⟨[], [.null]⟩, some ⟨[], [.object first]⟩,
    some ⟨[.object first], []⟩, some ⟨[.object first], [.null]⟩,
    some ⟨[.object first], [.object second]⟩,
    known 6, known 7, known 8, known 9, known 10]
  pending := [position]
  maxStack := 2
  maxLocals := 2
where
  known (other : Nat) : Option FrameState :=
    some (if other ≤ position then loopState a b other else loopState b a other)

def opening (a b : String) (position : Nat) : Flow where
  states := #[seen 0, seen 1, seen 2, seen 3, seen 4, seen 5, seen 6, seen 7, seen 8, seen 9, seen 10]
  pending := [position]
  maxStack := if position = 0 then 0 else if position ≤ 7 then 1 else 2
  maxLocals := if position ≤ 2 then 0 else if position ≤ 5 then 1 else 2
where
  seen (other : Nat) : Option FrameState := if other ≤ position then some (state other) else none
  state : Nat → FrameState
    | 0 => ⟨[], []⟩
    | 1 => ⟨[], [.null]⟩
    | 2 => ⟨[], [.object a]⟩
    | 3 => ⟨[.object a], []⟩
    | 4 => ⟨[.object a], [.null]⟩
    | 5 => ⟨[.object a], [.object b]⟩
    | other => loopState a b other

section Visits

variable {hierarchy : Hierarchy} {table : String → TypeMetadata} {a b : String}

theorem ensures_mergeStates_swaps (swaps : Swaps table b a) (position : Nat) :
    Ensures hierarchy table (hierarchy.mergeStates (loopState b a position) (loopState a b position))
      (· = loopState a b position) := by
  have both (locals stack : List Bool) : Ensures hierarchy table
      (hierarchy.mergeStates ⟨locals.map (pick b a), stack.map (pick b a)⟩
        ⟨locals.map (pick a b), stack.map (pick a b)⟩)
      (· = ⟨locals.map (pick a b), stack.map (pick a b)⟩) := by
    refine .bind (ensures_mergeSlots_pick swaps locals) ?_
    rintro _ rfl
    refine .bind (ensures_mergeSlots_pick swaps stack) ?_
    rintro _ rfl
    exact .pure rfl
  unfold loopState
  split <;> exact both _ _

theorem loopState_ne (distinct : a ≠ b) (position length : Nat) :
    loopState a b position ≠ (loopState b a position).reserve length := by
  intro same
  have first := congrArg (fun state => state.locals[0]?) same
  unfold loopState at first
  split at first <;> simp [reserve, extend, pick, distinct, distinct.symm] at first

theorem height_loopState (position : Nat) :
    (loopState b a position).stack.length = (loopState a b position).stack.length := by
  unfold loopState
  split <;> rfl

def Yields {α : Type} (hierarchy : Hierarchy) (table : String → TypeMetadata) (action : Analysis α)
    (value : α) : Prop := Ensures hierarchy table action.run (· = .ok value)

theorem yields_arrive (swaps : Swaps table b a) {before : Flow} {position offset : Nat}
    (at_ : before.states[position]?.join = some (loopState b a position)) :
    Yields hierarchy table (before.arrive hierarchy offset (loopState a b position) position)
      ((before.record position (loopState a b position)).mark position) := by
  unfold Flow.arrive
  rw [at_]
  dsimp only
  rw [if_neg (not_not.2 (height_loopState position)), Yields, ExceptT.run_bind]
  have merged : Ensures hierarchy table (ExceptT.run (ε := FrameError) (liftM
      (hierarchy.mergeStates (loopState b a position) (loopState a b position))))
      (· = .ok (loopState a b position)) := by
    refine .map (ensures_mergeStates_swaps swaps position) ?_
    rintro _ rfl
    rfl
  refine .bind merged ?_
  · rintro _ rfl
    dsimp only
    rw [if_neg (loopState_ne swaps.distinct.symm _ _)]
    exact .pure rfl

variable (context : FrameContext) (first second : String)

theorem visit_inside {position : Nat} (low : 6 ≤ position) (high : position ≤ 9) :
    Flow.visit context (Body.ofCode (swapBody first second)) position
        { flow first second a b position with pending := [] } =
      Flow.arrive context.hierarchy (position + 4) (loopState a b (position + 1)) (position + 1)
        { flow first second a b position with pending := [] } := by
  obtain rfl | rfl | rfl | rfl : position = 6 ∨ position = 7 ∨ position = 8 ∨ position = 9 := by
    omega
  all_goals
    simp only [Nat.reduceAdd]
    rfl

theorem position?_loop : (Body.ofCode (swapBody first second)).position? 10 = some 6 := by
  simp [Body.position?, Body.ofCode, swapBody, List.zipIdx]

theorem successors_last : Flow.successors (Body.ofCode (swapBody first second)) 10
    ⟨14, .jump Opcode.goto 10⟩ = pure [6] := by
  unfold Flow.successors
  simp only [Instruction.branchTargets, List.mapM_cons, List.mapM_nil, position?_loop, pure_bind]
  rfl

theorem visit_last :
    Flow.visit context (Body.ofCode (swapBody first second)) 10
        { flow first second a b 10 with pending := [] } =
      Flow.arrive context.hierarchy 14 (loopState b a 6) 6
        { flow first second a b 10 with pending := [] } := by
  change (Flow.successors (Body.ofCode (swapBody first second)) 10
    ⟨14, .jump Opcode.goto 10⟩ >>= _) = _
  rw [successors_last, pure_bind]
  rfl

/-- Every visit leaves the loop with one pending instruction: it never ends. -/
theorem run_flow {a b : String} (swaps : Swaps table a b) {position : Nat} (low : 6 ≤ position)
    (high : position ≤ 10) (steps : Nat) (cache : MetadataCache)
    (same : context.hierarchy.view cache = table) :
    ((Flow.run context (Body.ofCode (swapBody first second)) steps
      (flow first second a b position)).run cache).1 = .error ⟨0, .outOfSteps⟩ := by
  induction steps generalizing a b position cache with
  | zero => rfl
  | succ steps ih =>
    rw [Flow.run_visit rfl]
    by_cases last : position = 10
    · subst last
      have arrived : Yields context.hierarchy table
          (Flow.arrive context.hierarchy 14 (loopState b a 6) 6
            { flow first second a b 10 with pending := [] })
          (flow first second b a 6) := yields_arrive swaps rfl
      obtain ⟨done, still⟩ := arrived cache same
      rw [visit_last, ExceptT.run_bind_ok (Prod.ext done rfl)]
      exact ih swaps.symm (by omega) (by omega) _ still
    · have inside : position ≤ 9 := by omega
      have arrived : Yields context.hierarchy table
          (Flow.arrive context.hierarchy (position + 4) (loopState a b (position + 1))
            (position + 1) { flow first second a b position with pending := [] })
          (flow first second a b (position + 1)) := by
        obtain rfl | rfl | rfl | rfl :
            position = 6 ∨ position = 7 ∨ position = 8 ∨ position = 9 := by omega
        all_goals exact yields_arrive swaps.symm rfl
      obtain ⟨done, still⟩ := arrived cache same
      rw [visit_inside context first second low inside, ExceptT.run_bind_ok (Prod.ext done rfl)]
      exact ih swaps (by omega) (by omega) _ still

theorem visit_opening (a b : String) {position : Nat} (high : position ≤ 9) :
    Flow.visit context (Body.ofCode (swapBody a b)) position
        { opening a b position with pending := [] } = pure (opening a b (position + 1)) := by
  interval_cases position
  all_goals
    simp only [Nat.reduceAdd]
    rfl

theorem run_opening (a b : String) (steps : Nat) {left position : Nat}
    (all : position + left = 10) :
    Flow.run context (Body.ofCode (swapBody a b)) (steps + left) (opening a b position) =
      Flow.run context (Body.ofCode (swapBody a b)) steps (flow a b a b 10) := by
  induction left generalizing position with
  | zero =>
    obtain rfl : position = 10 := all
    rfl
  | succ left ih =>
    rw [← Nat.add_assoc, Flow.run_visit rfl, visit_opening context a b (by omega), pure_bind]
    exact ih (by omega)

theorem start_swapBody (a b : String) :
    Flow.start (Body.ofCode (swapBody a b)) ⟨[], []⟩ = opening a b 0 := rfl

theorem onEntry_swapMethod (owner : String) : onEntry owner swapMethod = .ok ⟨[], []⟩ := rfl

theorem analyze_swapBody (a b : String) (steps : Nat) :
    (swapBody a b).analyze context swapMethod steps = (do
      let flow ← Flow.run context (Body.ofCode (swapBody a b)) steps (opening a b 0)
      return (⟨[], []⟩, flow)) := by
  unfold Code.analyze
  rw [onEntry_swapMethod]
  dsimp only
  rw [start_swapBody]

theorem never_ends (swaps : Swaps table a b) (cache : MetadataCache)
    (same : context.hierarchy.view cache = table) :
    ¬ Flow.Ends ((swapBody a b).analyze context swapMethod) cache := by
  rintro ⟨bound, ends⟩
  have endless := run_flow context a b swaps (by omega) (Nat.le_refl 10) bound cache same
  rw [← run_opening context a b bound (Nat.zero_add 10)] at endless
  have failed : (((swapBody a b).analyze context swapMethod (bound + 10)).run cache).1 =
      .error ⟨0, .outOfSteps⟩ := by
    rw [analyze_swapBody]
    exact ExceptT.fst_run_bind_error endless
  exact ends (bound + 10) (Nat.le_add_right bound 10) _ failed rfl

end Visits

end Swapping

end ClassRenaming
