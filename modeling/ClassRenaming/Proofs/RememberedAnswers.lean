import ClassRenaming.Proofs.SameAnswers

/-!
What is remembered of types never shows in an answer. A call asks for the metadata of some names, each
of which is remembered from then on, so it is answered as by the table that holds, for every name,
what is remembered of it in the end, or else what its bytes say.
-/

namespace ClassRenaming

inductive Call where
  | metadata (name : String)
  | ancestor (a b : String)
  | seed (entry : TypeMetadata)
  deriving DecidableEq, Repr

inductive Answer where
  | entry (found : TypeMetadata)
  | name (text : String)
  deriving DecidableEq, Repr

namespace Hierarchy

def answer (hierarchy : Hierarchy) : Call → Resolving Answer
  | .metadata name => Answer.entry <$> hierarchy.metadata name
  | .ancestor a b => Answer.name <$> hierarchy.commonAncestor a b
  | .seed entry => Answer.entry <$> seed entry

def answers (hierarchy : Hierarchy) (calls : List Call) : Resolving (List Answer) :=
  calls.mapM hierarchy.answer

def remembered (hierarchy : Hierarchy) (calls : List Call) : MetadataCache :=
  (hierarchy.answers calls .empty).2

end Hierarchy

/-! A table with nothing remembered. -/

section Tables

variable (table : String → TypeMetadata) (steps : Nat)

def askedIn (a b : String) : List String :=
  if a = b then []
  else a :: b ::
    match (table a).isInterface, (table b).isInterface with
    | true, true => interfacesIn table steps [] [a] ++ interfacesIn table steps [] [b]
    | false, false =>
      superclassesIn table steps [] (some a) ++ superclassesIn table steps [] (some b)
    | _, _ => []

namespace Call

/-- The answer of a table, in walks of so many steps. What is offered must already be there. -/
def answerIn : Call → Answer
  | metadata name => .entry (table name)
  | ancestor a b => .name (ancestorIn table steps a b)
  | seed entry => .entry (table entry.name)

def asks : Call → List String
  | metadata name => [name]
  | ancestor a b => askedIn table steps a b
  | seed _ => []

/-- The metadata that a call leaves to be remembered: what it offers, and what is loaded for every
name that it asks for. -/
def leaves (load : String → TypeMetadata) : Call → List TypeMetadata
  | seed entry => [entry]
  | call => (call.asks table steps).map load

def leaves? (load : String → TypeMetadata) (name : String) : Call → Option TypeMetadata
  | seed entry => if entry.name = name then some entry else none
  | call => if name ∈ call.asks table steps then some (load name) else none

end Call

end Tables

/-! Remembering one entry after another. -/

namespace MetadataCache

def insertAll (cache : MetadataCache) (entries : List TypeMetadata) : MetadataCache :=
  entries.foldl insert cache

theorem insertAll_append (cache : MetadataCache) (entries others : List TypeMetadata) :
    cache.insertAll (entries ++ others) = (cache.insertAll entries).insertAll others :=
  List.foldl_append

theorem find?_insertAll (cache : MetadataCache) (entries : List TypeMetadata) (name : String) :
    (cache.insertAll entries).find? name =
      (cache.find? name).or (entries.find? (·.name == name)) := by
  induction entries generalizing cache with
  | nil => exact (Option.or_none).symm
  | cons entry rest ih =>
    have first := ih (cache.insert entry)
    rw [find?_insert, Option.or_assoc] at first
    refine first.trans (congrArg _ ?_)
    by_cases same : entry.name = name
    · simp [same]
    · simp [same]

theorem weight_insert (cache : MetadataCache) (entry : TypeMetadata) :
    cache.weight ≤ (cache.insert entry).weight := by
  unfold insert
  split
  · exact Nat.le_refl _
  · simp only [weight, List.foldr_cons]
    omega

theorem weight_insertAll (cache : MetadataCache) (entries : List TypeMetadata) :
    cache.weight ≤ (cache.insertAll entries).weight := by
  induction entries generalizing cache with
  | nil => exact Nat.le_refl _
  | cons entry rest ih => exact (cache.weight_insert entry).trans (ih _)

end MetadataCache

namespace Hierarchy

variable {hierarchy : Hierarchy}

theorem steps_insertAll (cache : MetadataCache) (entries : List TypeMetadata) :
    hierarchy.steps cache ≤ hierarchy.steps (cache.insertAll entries) := by
  have heavier := cache.weight_insertAll entries
  unfold steps
  exact Nat.mul_le_mul (by omega) (by omega)

theorem view_insertAll_load (cache : MetadataCache) (names : List String) :
    hierarchy.view (cache.insertAll (names.map hierarchy.load)) = hierarchy.view cache := by
  induction names generalizing cache with
  | nil => rfl
  | cons name rest ih => exact (ih _).trans (hierarchy.view_insert_load cache name)

theorem view_of_remembered {cache : MetadataCache} {name : String}
    (there : (cache.find? name).isSome) (more : List TypeMetadata) :
    hierarchy.view (cache.insertAll more) name = hierarchy.view cache name := by
  obtain ⟨entry, found⟩ := Option.isSome_iff_exists.1 there
  rw [view, view, MetadataCache.find?_insertAll, found]
  rfl

theorem isSome_find?_insertAll (cache : MetadataCache) {entries : List TypeMetadata}
    {entry : TypeMetadata} (member : entry ∈ entries) :
    ((cache.insertAll entries).find? entry.name).isSome := by
  rw [MetadataCache.find?_insertAll, Option.isSome_or, Bool.or_eq_true]
  exact .inr (List.find?_isSome.2 ⟨entry, member, beq_self_eq_true _⟩)

theorem view_of_asked (cache : MetadataCache) {names : List String} {name : String}
    (asked : name ∈ names) (more : List TypeMetadata) :
    hierarchy.view ((cache.insertAll (names.map hierarchy.load)).insertAll more) name =
      hierarchy.view cache name := by
  have there := isSome_find?_insertAll cache (List.mem_map_of_mem (f := hierarchy.load) asked)
  rw [load_name] at there
  rw [view_of_remembered there, view_insertAll_load]

/-! What a question asks for, and what it leaves to be remembered. -/

theorem metadata_run (cache : MetadataCache) (name : String) :
    hierarchy.metadata name cache =
      (hierarchy.view cache name, cache.insertAll [hierarchy.load name]) := by
  have run : hierarchy.metadata name cache =
      (cache.find? name).elim (hierarchy.load name, cache.insert (hierarchy.load name))
        (·, cache) := by
    simp only [metadata, get, getThe, MonadStateOf.get, bind, StateT.bind, StateT.get, pure]
    cases cache.find? name <;> rfl
  rw [run]
  cases known : cache.find? name with
  | none => simp [view, known, MetadataCache.insertAll]
  | some entry =>
    simp [view, known, MetadataCache.insertAll, MetadataCache.insert, hierarchy.load_name]

theorem superclassChain_run (cache : MetadataCache) (steps : Nat) (seen : List String)
    (start : Option String) :
    superclassChain hierarchy.metadata steps seen start cache =
      (superclassesIn (hierarchy.view cache) steps seen start,
        cache.insertAll ((superclassesIn (hierarchy.view cache) steps seen start).map
          hierarchy.load)) := by
  induction steps generalizing cache seen start with
  | zero => rfl
  | succ steps ih =>
    cases start with
    | none => rfl
    | some name =>
      rw [superclassesIn_succ, superclassChain]
      split
      · rfl
      · have rest := ih (cache.insertAll [hierarchy.load name]) (name :: seen)
          (hierarchy.view cache name).superclass
        have same := hierarchy.view_insertAll_load cache [name]
        rw [List.map_singleton] at same
        rw [same] at rest
        simp only [bind, StateT.bind, metadata_run, rest]
        rfl

theorem interfaceClosure_run (cache : MetadataCache) (steps : Nat) (seen stack : List String) :
    interfaceClosure hierarchy.metadata steps seen stack cache =
      (interfacesIn (hierarchy.view cache) steps seen stack,
        cache.insertAll ((interfacesIn (hierarchy.view cache) steps seen stack).map
          hierarchy.load)) := by
  induction steps generalizing cache seen stack with
  | zero => rfl
  | succ steps ih =>
    cases stack with
    | nil => rfl
    | cons name stack =>
      rw [interfacesIn_succ, interfaceClosure]
      split
      · exact ih cache seen stack
      · have rest := ih (cache.insertAll [hierarchy.load name]) (name :: seen)
          ((hierarchy.view cache name).interfaces ++ stack)
        have same := hierarchy.view_insertAll_load cache [name]
        rw [List.map_singleton] at same
        rw [same] at rest
        simp only [bind, StateT.bind, metadata_run, rest]
        rfl

theorem commonSuperclass_run (cache : MetadataCache) (steps : Nat) (a b : String) :
    commonSuperclass hierarchy.metadata steps a b cache =
      (firstShared (superclassesIn (hierarchy.view cache) steps [] (some b))
          (superclassesIn (hierarchy.view cache) steps [] (some a)),
        cache.insertAll ((superclassesIn (hierarchy.view cache) steps [] (some a) ++
          superclassesIn (hierarchy.view cache) steps [] (some b)).map hierarchy.load)) := by
  rw [List.map_append, MetadataCache.insertAll_append]
  simp only [commonSuperclass, bind, StateT.bind, superclassChain_run, view_insertAll_load]
  rfl

theorem commonInterface_run (cache : MetadataCache) (steps : Nat) (a b : String) :
    commonInterface hierarchy.metadata steps a b cache =
      (firstShared (interfacesIn (hierarchy.view cache) steps [] [a])
          (interfacesIn (hierarchy.view cache) steps [] [b]),
        cache.insertAll ((interfacesIn (hierarchy.view cache) steps [] [a] ++
          interfacesIn (hierarchy.view cache) steps [] [b]).map hierarchy.load)) := by
  rw [List.map_append, MetadataCache.insertAll_append]
  simp only [commonInterface, bind, StateT.bind, interfaceClosure_run, view_insertAll_load]
  rfl

theorem ancestor_run (cache : MetadataCache) (steps : Nat) (a b : String) :
    ClassRenaming.commonAncestor hierarchy.metadata steps a b cache =
      (ancestorIn (hierarchy.view cache) steps a b,
        cache.insertAll ((askedIn (hierarchy.view cache) steps a b).map hierarchy.load)) := by
  by_cases same : a = b
  · rw [ClassRenaming.commonAncestor, if_pos same, askedIn, if_pos same, same, ancestorIn_self]
    rfl
  · rw [ClassRenaming.commonAncestor, if_neg same, askedIn, if_neg same, ancestorIn_of_ne _ same]
    have first : hierarchy.view (cache.insertAll [hierarchy.load a]) = hierarchy.view cache :=
      view_insertAll_load cache [a]
    have both : hierarchy.view ((cache.insertAll [hierarchy.load a]).insertAll [hierarchy.load b]) =
        hierarchy.view cache := (view_insertAll_load _ [b]).trans first
    simp only [bind, StateT.bind, metadata_run, first]
    cases (hierarchy.view cache a).isInterface <;> cases (hierarchy.view cache b).isInterface
    · refine (commonSuperclass_run _ steps a b).trans ?_
      rw [both]
      rfl
    · rfl
    · rfl
    · refine (commonInterface_run _ steps a b).trans ?_
      rw [both]
      rfl

theorem answer_run (cache : MetadataCache) (call : Call) :
    let after := cache.insertAll
      (call.leaves (hierarchy.view cache) (hierarchy.steps cache) hierarchy.load)
    hierarchy.answer call cache =
      (call.answerIn (hierarchy.view after) (hierarchy.steps cache), after) := by
  cases call with
  | metadata name =>
    have same : hierarchy.view (cache.insertAll [hierarchy.load name]) = hierarchy.view cache :=
      view_insertAll_load cache [name]
    simp only [answer, Call.leaves, Call.asks, List.map_singleton, Call.answerIn, same, Functor.map,
      StateT.map, bind, metadata_run]
    rfl
  | ancestor a b =>
    simp only [answer, Call.leaves, Call.asks, Call.answerIn, view_insertAll_load, Functor.map,
      StateT.map, bind, commonAncestor, get, getThe, MonadStateOf.get, StateT.bind, StateT.get, pure,
      ancestor_run]
  | seed entry =>
    have there := isSome_find?_insertAll cache (List.mem_singleton.2 (Eq.refl entry))
    obtain ⟨found, known⟩ := Option.isSome_iff_exists.1 there
    have now : hierarchy.view (cache.insertAll [entry]) entry.name = found := by
      rw [view, known]
      rfl
    simp only [Call.leaves, Call.answerIn, now]
    change (Answer.entry (((cache.insertAll [entry]).find? entry.name).getD entry),
      cache.insertAll [entry]) = _
    rw [known]
    rfl

end Hierarchy

/-! Walks through tables that have the same metadata for what is asked. -/

section Same

variable {table other : String → TypeMetadata}

theorem superclassesIn_congr {steps : Nat} {seen : List String} {start : Option String}
    (same : ∀ name ∈ superclassesIn table steps seen start, other name = table name) :
    superclassesIn other steps seen start = superclassesIn table steps seen start := by
  induction steps generalizing seen start with
  | zero => rfl
  | succ steps ih =>
    cases start with
    | none => rfl
    | some name =>
      rw [superclassesIn_succ] at same ⊢
      rw [superclassesIn_succ]
      by_cases old : name ∈ seen
      · rw [if_pos old, if_pos old]
      · rw [if_neg old, List.forall_mem_cons] at same
        rw [if_neg old, if_neg old, same.1, ih same.2]

theorem interfacesIn_congr {steps : Nat} {seen stack : List String}
    (same : ∀ name ∈ interfacesIn table steps seen stack, other name = table name) :
    interfacesIn other steps seen stack = interfacesIn table steps seen stack := by
  induction steps generalizing seen stack with
  | zero => rfl
  | succ steps ih =>
    cases stack with
    | nil => rfl
    | cons name stack =>
      rw [interfacesIn_succ] at same ⊢
      rw [interfacesIn_succ]
      by_cases old : name ∈ seen
      · rw [if_pos old] at same
        rw [if_pos old, if_pos old, ih same]
      · rw [if_neg old, List.forall_mem_cons] at same
        rw [if_neg old, if_neg old, same.1, ih same.2]

theorem asked_congr {steps : Nat} {a b : String}
    (same : ∀ name ∈ askedIn table steps a b, other name = table name) :
    askedIn other steps a b = askedIn table steps a b ∧
      ancestorIn other steps a b = ancestorIn table steps a b := by
  by_cases equal : a = b
  · rw [askedIn, askedIn, if_pos equal, if_pos equal, equal, ancestorIn_self, ancestorIn_self]
    exact ⟨rfl, rfl⟩
  · rw [askedIn, if_neg equal, List.forall_mem_cons, List.forall_mem_cons] at same
    obtain ⟨left, right, walks⟩ := same
    rw [askedIn, askedIn, if_neg equal, if_neg equal, ancestorIn_of_ne _ equal,
      ancestorIn_of_ne _ equal, left, right]
    revert walks
    cases (table a).isInterface <;> cases (table b).isInterface <;> intro walks
    · obtain ⟨first, second⟩ := List.forall_mem_append.1 walks
      rw [superclassesIn_congr first, superclassesIn_congr second]
      exact ⟨rfl, rfl⟩
    · exact ⟨rfl, rfl⟩
    · exact ⟨rfl, rfl⟩
    · obtain ⟨first, second⟩ := List.forall_mem_append.1 walks
      rw [interfacesIn_congr first, interfacesIn_congr second]
      exact ⟨rfl, rfl⟩

theorem askedIn_of_steps_le {hierarchy : Hierarchy} {cache : MetadataCache} {steps : Nat}
    (le : hierarchy.steps cache ≤ steps) (a b : String) :
    askedIn (hierarchy.view cache) steps a b =
      askedIn (hierarchy.view cache) (hierarchy.steps cache) a b := by
  simp only [askedIn, superclassesIn_of_steps_le rfl le, interfacesIn_of_steps_le rfl le]

end Same

namespace Hierarchy

variable {hierarchy : Hierarchy}

theorem lasts (cache : MetadataCache) (call : Call) (more : List TypeMetadata) {steps : Nat}
    (le : hierarchy.steps cache ≤ steps) :
    let left := call.leaves (hierarchy.view cache) (hierarchy.steps cache) hierarchy.load
    let after := cache.insertAll left
    let table := hierarchy.view (after.insertAll more)
    call.answerIn (hierarchy.view after) (hierarchy.steps cache) = call.answerIn table steps ∧
      left = call.leaves table steps hierarchy.load := by
  cases call with
  | metadata name =>
    have there := isSome_find?_insertAll cache (List.mem_singleton.2 (Eq.refl (hierarchy.load name)))
    rw [load_name] at there
    exact ⟨congrArg Answer.entry (view_of_remembered there more).symm, rfl⟩
  | ancestor a b =>
    have asked := askedIn_of_steps_le le a b
    have told : ∀ name ∈ askedIn (hierarchy.view cache) steps a b,
        hierarchy.view ((cache.insertAll
          ((askedIn (hierarchy.view cache) steps a b).map hierarchy.load)).insertAll more) name =
            hierarchy.view cache name := fun name member => view_of_asked cache member more
    have same := asked_congr told
    rw [asked] at same
    obtain ⟨names, answer⟩ := same
    simp only [Call.leaves, Call.asks, Call.answerIn, view_insertAll_load]
    rw [names, answer, ancestorIn_of_steps_le rfl le]
    exact ⟨rfl, rfl⟩
  | seed entry =>
    have there := isSome_find?_insertAll cache (List.mem_singleton.2 (Eq.refl entry))
    exact ⟨congrArg Answer.entry (view_of_remembered there more).symm, rfl⟩

theorem answers_run (cache : MetadataCache) (calls : List Call) (more : Nat) :
    let after := (hierarchy.answers calls cache).2
    let table := hierarchy.view after
    let steps := hierarchy.steps after + more
    (hierarchy.answers calls cache).1 = calls.map (Call.answerIn table steps) ∧
      after = cache.insertAll (calls.flatMap (Call.leaves table steps hierarchy.load)) := by
  induction calls generalizing cache with
  | nil => exact ⟨rfl, rfl⟩
  | cons call rest ih =>
    have here := hierarchy.answer_run cache call
    dsimp only at here
    obtain ⟨others, grown⟩ :=
      ih (cache.insertAll (call.leaves (hierarchy.view cache) (hierarchy.steps cache) hierarchy.load))
    have run : hierarchy.answers (call :: rest) cache =
        ((hierarchy.answer call cache).1 :: (hierarchy.answers rest (hierarchy.answer call cache).2).1,
          (hierarchy.answers rest (hierarchy.answer call cache).2).2) := by
      rw [answers, List.mapM_cons]
      rfl
    rw [run, here]
    dsimp only at others grown ⊢
    have later := (steps_insertAll _ _).trans_eq (congrArg hierarchy.steps grown.symm)
    have le := (steps_insertAll cache _).trans later
    obtain ⟨answer, left⟩ := hierarchy.lasts cache call _ (le.trans (Nat.le_add_right _ more))
    rw [← grown] at answer left
    refine ⟨?_, ?_⟩
    · rw [List.map_cons, others, answer]
    · rw [List.flatMap_cons, MetadataCache.insertAll_append, ← left]
      exact grown

theorem find?_map_load (names : List String) (name : String) :
    (names.map hierarchy.load).find? (·.name == name) =
      if name ∈ names then some (hierarchy.load name) else none := by
  induction names with
  | nil => rfl
  | cons first rest ih =>
    rw [List.map_cons, List.find?_cons, ih, load_name]
    by_cases same : first = name
    · simp [same]
    · simp [beq_eq_false_iff_ne.2 same, Ne.symm same]

theorem find?_leaves (table : String → TypeMetadata) (steps : Nat) (call : Call) (name : String) :
    (call.leaves table steps hierarchy.load).find? (·.name == name) =
      call.leaves? table steps hierarchy.load name := by
  cases call with
  | metadata asked => exact find?_map_load _ _
  | ancestor a b => exact find?_map_load _ _
  | seed entry => simp only [Call.leaves, Call.leaves?, List.find?_singleton, beq_iff_eq]

theorem remembered_append (calls later : List Call) :
    hierarchy.remembered (calls ++ later) =
      (hierarchy.answers later (hierarchy.remembered calls)).2 := by
  rw [remembered, answers, List.mapM_append]
  rfl

theorem leaves_of_asking {call : Call} (asking : ∀ entry, call ≠ .seed entry)
    (table : String → TypeMetadata) (steps : Nat) :
    call.leaves table steps hierarchy.load = (call.asks table steps).map hierarchy.load := by
  cases call with
  | seed entry => exact absurd rfl (asking entry)
  | _ => rfl

theorem view_remembered {calls : List Call} (asking : ∀ call ∈ calls, ∀ entry, call ≠ .seed entry) :
    hierarchy.view (hierarchy.remembered calls) = hierarchy.load := by
  obtain ⟨-, grown⟩ := hierarchy.answers_run .empty calls 0
  let table := hierarchy.view (hierarchy.remembered calls)
  let steps := hierarchy.steps (hierarchy.remembered calls) + 0
  have loads : calls.flatMap (Call.leaves table steps hierarchy.load) =
      calls.flatMap fun call => (call.asks table steps).map hierarchy.load :=
    List.flatMap_congr fun call member => leaves_of_asking (asking call member) table steps
  rw [← List.map_flatMap] at loads
  have same := grown.trans (congrArg _ loads)
  rw [show hierarchy.remembered calls = _ from same, view_insertAll_load]
  rfl

theorem answer_empty {call : Call} (asking : ∀ entry, call ≠ .seed entry) {steps : Nat}
    (le : hierarchy.steps .empty ≤ steps) :
    (hierarchy.answer call .empty).1 = call.answerIn hierarchy.load steps := by
  have alone := hierarchy.answer_run .empty call
  obtain ⟨answer, -⟩ := hierarchy.lasts .empty call [] le
  rw [leaves_of_asking asking] at alone answer
  have loaded : hierarchy.view (MetadataCache.empty.insertAll ((call.asks (hierarchy.view .empty)
      (hierarchy.steps .empty)).map hierarchy.load)) = hierarchy.load := view_insertAll_load _ _
  rw [alone]
  refine answer.trans ?_
  rw [MetadataCache.insertAll, List.foldl_nil, loaded]

/-- What is remembered stays, and is for every name the first that a call left for it: what was
offered, or what was loaded. The answers are those of the table that has what is remembered in the
end, and without an offer each is the one that its question gets alone. -/
theorem answers_transparent (hierarchy : Hierarchy) (calls : List Call) (more : Nat) :
    let table := hierarchy.view (hierarchy.remembered calls)
    let steps := hierarchy.steps (hierarchy.remembered calls) + more
    (∀ later name entry, (hierarchy.remembered calls).find? name = some entry →
        (hierarchy.remembered (calls ++ later)).find? name = some entry) ∧
      (∀ name, (hierarchy.remembered calls).find? name =
        calls.findSome? (Call.leaves? table steps hierarchy.load name)) ∧
      (hierarchy.answers calls .empty).1 = calls.map (Call.answerIn table steps) ∧
      ((∀ call ∈ calls, ∀ entry, call ≠ .seed entry) → (hierarchy.answers calls .empty).1 =
        calls.map fun call => (hierarchy.answer call .empty).1) := by
  intro table steps
  obtain ⟨all, grown⟩ := hierarchy.answers_run .empty calls more
  refine ⟨fun later name entry found => ?_, fun name => ?_, all, fun asking => ?_⟩
  · obtain ⟨-, longer⟩ := hierarchy.answers_run (hierarchy.remembered calls) later 0
    rw [remembered_append, longer, MetadataCache.find?_insertAll, found]
    rfl
  · have looked := congrArg (MetadataCache.find? · name) grown
    rw [MetadataCache.find?_insertAll, MetadataCache.find?_empty, Option.none_or,
      List.find?_flatMap] at looked
    refine looked.trans (congrArg (calls.findSome? ·) (funext fun call => ?_))
    exact find?_leaves _ _ call name
  · refine all.trans (List.map_congr_left fun call member => ?_)
    have le : hierarchy.steps .empty ≤ steps := by
      refine Nat.le_add_right_of_le ?_
      rw [show hierarchy.remembered calls = _ from grown]
      exact steps_insertAll _ _
    rw [answer_empty (asking call member) le, ← view_remembered asking]
    rfl

end Hierarchy

end ClassRenaming
