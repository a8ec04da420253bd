import ClassRenaming.Proofs.WalkBounds
import ClassRenaming.Relocation

/-!
Results that follow from the answers of a hierarchy. As long as the answers are those of one table,
a question, an analysis of a body and the frames of a whole class come out the same, whatever else is
remembered: a walk with more steps than it needs sees what a walk with enough of them sees.
-/

namespace ClassRenaming

/-! Steps that a walk has left over change nothing. -/

section Walks

variable (table : String → TypeMetadata) {names : List String}

theorem superclassesIn_add (up : ∀ a b, (table a).superclass = some b → b ∈ names)
    {steps : Nat} {seen : List String} {start : Option String} (distinct : seen.Nodup)
    (inside : seen ⊆ names) (begin : ∀ name, start = some name → name ∈ names)
    (enough : names.length < steps + seen.length) (more : Nat) :
    superclassesIn table (steps + more) seen start = superclassesIn table steps seen start := by
  induction steps generalizing seen start with
  | zero =>
    have few := distinct.length_le_of_subset inside
    omega
  | succ steps ih =>
    cases start with
    | none => rw [superclassesIn_none, superclassesIn_none]
    | some name =>
      rw [Nat.add_right_comm, superclassesIn_succ, superclassesIn_succ]
      by_cases old : name ∈ seen
      · rw [if_pos old, if_pos old]
      · rw [if_neg old, if_neg old]
        have here := begin name rfl
        have rest := @ih (name :: seen) (table name).superclass (List.nodup_cons.2 ⟨old, distinct⟩)
          (List.cons_subset.2 ⟨here, inside⟩) (up name) (by rw [List.length_cons]; omega)
        rw [rest]

theorem interfacesIn_add (up : ∀ a, ∀ b ∈ (table a).interfaces, b ∈ names) {degree : Nat}
    (few : ∀ a, (table a).interfaces.length ≤ degree) {steps unseen : Nat}
    {seen stack : List String} (distinct : seen.Nodup) (inside : seen ⊆ names)
    (begin : stack ⊆ names) (rest : names.length ≤ unseen + seen.length)
    (enough : stack.length + unseen * (degree + 1) < steps) (more : Nat) :
    interfacesIn table (steps + more) seen stack = interfacesIn table steps seen stack := by
  induction steps generalizing seen stack unseen with
  | zero => omega
  | succ steps ih =>
    cases stack with
    | nil => rw [interfacesIn_nil, interfacesIn_nil]
    | cons name stack =>
      obtain ⟨here, begin⟩ := List.cons_subset.1 begin
      rw [List.length_cons] at enough
      rw [Nat.add_right_comm, interfacesIn_succ, interfacesIn_succ]
      by_cases old : name ∈ seen
      · rw [if_pos old, if_pos old]
        exact ih distinct inside begin rest (by omega)
      · rw [if_neg old, if_neg old]
        have larger := (List.nodup_cons.2 ⟨old, distinct⟩).length_le_of_subset
          (List.cons_subset.2 ⟨here, inside⟩)
        rw [List.length_cons] at larger
        obtain ⟨left, rfl⟩ : ∃ left, unseen = left + 1 := ⟨unseen - 1, by omega⟩
        have degrees := few name
        have later := @ih left (name :: seen) ((table name).interfaces ++ stack)
          (List.nodup_cons.2 ⟨old, distinct⟩) (List.cons_subset.2 ⟨here, inside⟩)
          (List.append_subset.2 ⟨up name, begin⟩) (by rw [List.length_cons]; omega)
          (by rw [List.length_append]; rw [Nat.add_mul] at enough; omega)
        rw [later]

end Walks

section Complete

variable {hierarchy : Hierarchy} {cache : MetadataCache} {table : String → TypeMetadata}

theorem superclassesIn_of_steps_le (same : hierarchy.view cache = table) {steps : Nat}
    (le : hierarchy.steps cache ≤ steps) (a : String) :
    superclassesIn table steps [] (some a) =
      superclassesIn table (hierarchy.steps cache) [] (some a) := by
  subst same
  obtain ⟨more, rfl⟩ := Nat.exists_eq_add_of_le le
  obtain ⟨enough, -⟩ := declared_lt_steps hierarchy cache
  apply superclassesIn_add (hierarchy.view cache)
    (fun x y super => List.mem_cons_of_mem a (hierarchy.mem_declared cache (.inl super)))
    List.nodup_nil (List.nil_subset _)
  · intro name same
    cases same
    exact List.mem_cons_self
  · rw [List.length_nil, Nat.add_zero, List.length_cons]
    exact enough

theorem interfacesIn_of_steps_le (same : hierarchy.view cache = table) {steps : Nat}
    (le : hierarchy.steps cache ≤ steps) (a : String) :
    interfacesIn table steps [] [a] = interfacesIn table (hierarchy.steps cache) [] [a] := by
  subst same
  obtain ⟨more, rfl⟩ := Nat.exists_eq_add_of_le le
  obtain ⟨-, enough⟩ := declared_lt_steps hierarchy cache
  have bound : [a].length + (a :: hierarchy.declared cache).length * (cache.weight + 65535 + 1) <
      hierarchy.steps cache := by
    rw [List.length_singleton, List.length_cons]
    exact enough
  exact interfacesIn_add (hierarchy.view cache)
    (fun x y listed => List.mem_cons_of_mem a (hierarchy.mem_declared cache (.inr listed)))
    (hierarchy.length_interfaces_view cache) List.nodup_nil (List.nil_subset _)
    (List.cons_subset.2 ⟨List.mem_cons_self, List.nil_subset _⟩)
    (by rw [List.length_nil, Nat.add_zero]) bound more

theorem ancestorIn_of_steps_le (same : hierarchy.view cache = table) {steps : Nat}
    (le : hierarchy.steps cache ≤ steps) (a b : String) :
    ancestorIn table steps a b = ancestorIn table (hierarchy.steps cache) a b := by
  by_cases equal : a = b
  · rw [equal, ancestorIn_self, ancestorIn_self]
  · rw [ancestorIn_of_ne table equal, ancestorIn_of_ne table equal]
    simp only [superclassesIn_of_steps_le same le, interfacesIn_of_steps_le same le]

theorem ancestorIn_steps {other : MetadataCache} (same : hierarchy.view cache = table)
    (also : hierarchy.view other = table) (a b : String) :
    ancestorIn table (hierarchy.steps cache) a b = ancestorIn table (hierarchy.steps other) a b := by
  rcases Nat.le_total (hierarchy.steps cache) (hierarchy.steps other) with le | le
  · exact (ancestorIn_of_steps_le same le a b).symm
  · exact ancestorIn_of_steps_le also le a b

end Complete

theorem Ensures.mapM_eq {α β : Type} {hierarchy : Hierarchy} {table : String → TypeMetadata}
    {items : List α} {step : α → Resolving β} {f : α → β}
    (each : ∀ item ∈ items, Ensures hierarchy table (step item) (· = f item)) :
    Ensures hierarchy table (items.mapM step) (· = items.map f) := by
  induction items with
  | nil =>
    rw [List.mapM_nil]
    exact .pure rfl
  | cons item rest ih =>
    rw [List.forall_mem_cons] at each
    rw [List.mapM_cons]
    refine .bind each.1 ?_
    rintro _ rfl
    refine .bind (ih each.2) ?_
    rintro _ rfl
    exact .pure rfl

/-- A computation whose result and remembered answers follow from the answers at its start. -/
def Determined {α : Type} (hierarchy : Hierarchy) (table : String → TypeMetadata)
    (action : Resolving α) : Prop := ∃ value, Ensures hierarchy table action (· = value)

namespace Determined

variable {α β : Type} {hierarchy : Hierarchy} {table : String → TypeMetadata}

theorem pure (value : α) : Determined hierarchy table (pure value) := ⟨value, .pure rfl⟩

theorem bind {action : Resolving α} {next : α → Resolving β}
    (first : Determined hierarchy table action)
    (second : ∀ value, Determined hierarchy table (next value)) :
    Determined hierarchy table (action >>= next) := by
  obtain ⟨value, found⟩ := first
  obtain ⟨result, finished⟩ := second value
  refine ⟨result, .bind found ?_⟩
  rintro _ rfl
  exact finished

theorem map {action : Resolving α} (f : α → β) (first : Determined hierarchy table action) :
    Determined hierarchy table (f <$> action) := by
  obtain ⟨value, found⟩ := first
  exact ⟨f value, found.map fun _ same => congrArg f same⟩

theorem mapM {items : List α} {step : α → Resolving β}
    (each : ∀ item, Determined hierarchy table (step item)) :
    Determined hierarchy table (items.mapM step) := by
  choose f found using each
  exact ⟨items.map f, .mapM_eq fun item _ => found item⟩

/-! Computations that may fail. -/

variable {ε : Type}

theorem throw (error : ε) :
    Determined hierarchy table (throw error : ExceptT ε Resolving α).run := .pure _

theorem lift {action : Resolving α} (first : Determined hierarchy table action) :
    Determined hierarchy table (liftM action : ExceptT ε Resolving α).run := first.map Except.ok

theorem andThen {action : ExceptT ε Resolving α} {next : α → ExceptT ε Resolving β}
    (first : Determined hierarchy table action.run)
    (second : ∀ value, Determined hierarchy table (next value).run) :
    Determined hierarchy table (action >>= next).run := by
  rw [ExceptT.run_bind]
  refine first.bind fun outcome => ?_
  cases outcome with
  | error error => exact .pure _
  | ok value => exact second value

theorem each {items : List α} {step : α → ExceptT ε Resolving β}
    (h : ∀ item ∈ items, Determined hierarchy table (step item).run) :
    Determined hierarchy table (items.mapM step).run := by
  induction items with
  | nil =>
    rw [List.mapM_nil]
    exact .pure _
  | cons item rest ih =>
    rw [List.forall_mem_cons] at h
    rw [List.mapM_cons]
    exact .andThen h.1 fun value => .andThen (ih h.2) fun values => .pure _

theorem foldlM {items : List α} {step : β → α → ExceptT ε Resolving β}
    (h : ∀ value, ∀ item ∈ items, Determined hierarchy table (step value item).run) (start : β) :
    Determined hierarchy table (items.foldlM step start).run := by
  induction items generalizing start with
  | nil =>
    rw [List.foldlM_nil]
    exact .pure _
  | cons item rest ih =>
    rw [List.foldlM_cons]
    exact .andThen (h start item List.mem_cons_self) fun value =>
      ih (fun value other member => h value other (List.mem_cons_of_mem _ member)) value

end Determined

section Merging

variable {hierarchy : Hierarchy} {table : String → TypeMetadata}

theorem determined_commonAncestor (a b : String) :
    Determined hierarchy table (hierarchy.commonAncestor a b) := by
  by_cases reached : ∃ cache, hierarchy.view cache = table
  · obtain ⟨cache, same⟩ := reached
    refine ⟨ancestorIn table (hierarchy.steps cache) a b, (ensures_commonAncestor a b).mono ?_⟩
    rintro answer ⟨other, also, rfl⟩
    exact ancestorIn_steps also same a b
  · exact ⟨objectName, fun cache same => absurd ⟨cache, same⟩ reached⟩

theorem determined_mergeReferences (a b : String) :
    Determined hierarchy table (hierarchy.mergeReferences a b) := by
  induction length : a.toList.length using Nat.strongRecOn generalizing a b with
  | ind n ih =>
    rw [Hierarchy.mergeReferences]
    split
    · exact determined_commonAncestor a b
    · split
      · exact .pure objectName
      · split
        · next x y inner _ =>
          split
          · have shorter : x.toList.length < n := by
              have below := length_internalName? inner
              have rest : (splitArray a.toList).2.length ≤ a.toList.length :=
                (List.dropWhile_suffix (· == '[') (l := a.toList)).length_le
              simp only [String.toList_ofList] at below
              omega
            exact (ih _ shorter x y rfl).map _
          · exact .pure _
        · exact .pure _

theorem determined_mergeTypes (a b : VerificationType) :
    Determined hierarchy table (hierarchy.mergeTypes a b) := by
  unfold Hierarchy.mergeTypes
  split
  · exact .pure a
  · split
    · exact .pure _
    · exact .pure _
    · next x y _ => exact (determined_mergeReferences x y).bind fun name => .pure _
    · exact .pure _

theorem determined_mergeSlots (a b : List VerificationType) :
    Determined hierarchy table (hierarchy.mergeSlots a b) := by
  induction a generalizing b with
  | nil => exact .mapM fun type => determined_mergeTypes .top type
  | cons first rest ih =>
    refine (determined_mergeTypes first (b.head?.getD .top)).bind fun merged => ?_
    exact (ih b.tail).bind fun others => .pure (merged :: others)

theorem determined_mergeStates (recorded incoming : FrameState) :
    Determined hierarchy table (hierarchy.mergeStates recorded incoming) := by
  refine (determined_mergeSlots recorded.locals incoming.locals).bind fun locals => ?_
  exact (determined_mergeSlots recorded.stack incoming.stack).bind fun stack => .pure _

end Merging

namespace Flow

variable {context : FrameContext} {table : String → TypeMetadata}

theorem determined_arrive (offset : Nat) (incoming : FrameState) (position : Nat) (flow : Flow) :
    Determined context.hierarchy table
      (flow.arrive context.hierarchy offset incoming position).run := by
  unfold arrive
  split
  · exact .pure _
  · next recorded _ =>
    split
    · exact .throw _
    · exact .andThen (.lift (determined_mergeStates recorded incoming)) fun merged => .pure _

theorem determined_catchIn (body : Body) (offset : Nat) (entry exit : FrameState) (flow : Flow)
    (handler : Handler) : Determined context.hierarchy table
      (catchIn context.hierarchy body offset entry exit flow handler).run := by
  unfold catchIn
  split
  · exact .pure _
  · split
    · exact .throw _
    · exact .andThen (determined_arrive _ _ _ _) fun middle => determined_arrive _ _ _ middle

theorem determined_successors (body : Body) (position : Nat) (placed : Placed) :
    Determined context.hierarchy table (successors body position placed).run := by
  unfold successors
  refine .andThen (.each fun target _ => ?_) fun targets => ?_
  · split
    · exact .pure _
    · exact .throw _
  · split
    · exact .pure _
    · split
      · exact .pure _
      · exact .throw _

theorem determined_visit (body : Body) (position : Nat) (flow : Flow) :
    Determined context.hierarchy table (visit context body position flow).run := by
  unfold visit
  split
  · next placed entry _ _ =>
    split
    · exact .throw _
    · next exit _ =>
      refine .andThen (determined_successors body position placed) fun targets => ?_
      refine .andThen (.foldlM (fun flow target _ => determined_arrive _ exit target flow) _) ?_
      intro reached
      exact .foldlM (fun flow handler _ => determined_catchIn body _ entry exit flow handler) reached
  · exact .pure _

theorem determined_run (body : Body) (steps : Nat) (flow : Flow) :
    Determined context.hierarchy table (flow.run context body steps).run := by
  induction steps generalizing flow with
  | zero =>
    unfold run
    split
    · exact .pure _
    · exact .throw _
  | succ steps ih =>
    unfold run
    split
    · exact .pure _
    · exact .andThen (determined_visit body _ _) ih

end Flow

section Classes

variable {table : String → TypeMetadata}

theorem determined_recompute (context : FrameContext) (major : UInt16) (member : Member)
    (code : Code) :
    Determined context.hierarchy table (code.recompute context major member).run := by
  unfold Code.recompute Code.recomputeWithin Code.analyze
  refine .andThen ?_ fun found => ?_
  · dsimp only
    split
    · exact .throw _
    · exact .andThen (Flow.determined_run _ _ _) fun flow => .pure _
  · dsimp only
    split
    · exact .throw _
    · exact .pure _

theorem determined_recomputeMember (context : FrameContext) (name : String) (major : UInt16)
    (member : Member) :
    Determined context.hierarchy table
      (Relocator.recomputeMember context name major member).run := by
  unfold Relocator.recomputeMember
  refine .andThen (.each fun item _ => ?_) fun attributes => .pure _
  split
  · next body _ =>
    refine .andThen ?_ fun result => .pure _
    unfold Relocator.recomputeBody
    split
    · exact .pure _
    · refine .andThen (.lift (determined_recompute context major member body)) fun outcome => ?_
      split
      · exact .pure _
      · exact .throw _
  · exact .pure _

end Classes

end ClassRenaming
