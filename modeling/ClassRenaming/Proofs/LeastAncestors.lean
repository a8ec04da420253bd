import ClassRenaming.Proofs.SameAnswers

/-!
The common ancestor of two classes is the least of their upper bounds. The bounds of a class are its
superclasses and the top class, which also counts where a chain ends early: at a type without known
bytes, or at a header without a superclass. From this the answers commute and associate, which is why
the order in which states are merged does not matter.
-/

namespace ClassRenaming

/-- The names among which a common ancestor of a class is looked for: its chain of superclasses, as
it is walked, and the top class. -/
def Hierarchy.ancestors (hierarchy : Hierarchy) (cache : MetadataCache) (name : String) :
    List String :=
  (superclassChain hierarchy.metadata (hierarchy.steps cache) [] (some name) cache).1 ++
    [objectName]

/-- A chain of superclasses has classes only, and goes in no circle. -/
structure OrderlyChain (table : String → TypeMetadata) (name : String) : Prop where
  classes : ∀ above, SuperAbove table name above → (table above).isInterface = false
  acyclic : ∀ above, SuperAbove table name above →
    ¬ Relation.TransGen (fun a b => (table a).superclass = some b) above above

def Bounds (table : String → TypeMetadata) (name bound : String) : Prop :=
  SuperAbove table name bound ∨ bound = objectName

/-- A bound of two types below all their bounds. -/
structure Joins (table : String → TypeMetadata) (a b join : String) : Prop where
  left : Bounds table a join
  right : Bounds table b join
  least : ∀ bound, Bounds table a bound → Bounds table b bound → Bounds table join bound

section Orders

variable {table : String → TypeMetadata} {a b c : String}

theorem OrderlyChain.above (orderly : OrderlyChain table a) (higher : SuperAbove table a b) :
    OrderlyChain table b where
  classes := fun bound up => orderly.classes bound (higher.trans up)
  acyclic := fun bound up => orderly.acyclic bound (higher.trans up)

theorem OrderlyChain.of_rank (rank : String → Nat)
    (falls : ∀ a b, (table a).superclass = some b → rank b < rank a)
    (classes : ∀ a, (table a).isInterface = false) : OrderlyChain table a where
  classes := fun above _ => classes above
  acyclic := by
    intro above _ circle
    have lower : ∀ b, Relation.TransGen (fun a b => (table a).superclass = some b) above b →
        rank b < rank above := by
      intro b up
      induction up with
      | single step => exact falls _ _ step
      | tail _ step ih => exact (falls _ _ step).trans ih
    exact Nat.lt_irrefl _ (lower above circle)

theorem OrderlyChain.antisymm (orderly : OrderlyChain table a) (up : SuperAbove table a b)
    (down : SuperAbove table b a) : a = b := by
  rcases Relation.reflTransGen_iff_eq_or_transGen.1 up with same | further
  · exact same.symm
  · exact absurd (further.trans_left down) (orderly.acyclic a .refl)

theorem eq_of_superAbove_top (top : (table objectName).superclass = none)
    (up : SuperAbove table objectName b) : b = objectName := by
  induction up with
  | refl => rfl
  | tail _ step ih =>
    rw [ih, top] at step
    cases step

theorem bounds_top (top : (table objectName).superclass = none) :
    Bounds table objectName b ↔ b = objectName := by
  constructor
  · rintro (up | same)
    · exact eq_of_superAbove_top top up
    · exact same
  · exact .inr

theorem Bounds.trans (top : (table objectName).superclass = none) (first : Bounds table a b)
    (second : Bounds table b c) : Bounds table a c := by
  rcases first with up | rfl
  · exact second.imp_left up.trans
  · exact .inr ((bounds_top top).1 second)

theorem Bounds.antisymm (top : (table objectName).superclass = none)
    (orderly : OrderlyChain table a ∨ a = objectName) (up : Bounds table a b)
    (down : Bounds table b a) : a = b := by
  rcases orderly with orderly | rfl
  · rcases up with up | rfl
    · rcases down with down | rfl
      · exact orderly.antisymm up down
      · exact (eq_of_superAbove_top top up).symm
    · exact (bounds_top top).1 down
  · exact ((bounds_top top).1 up).symm

theorem Joins.symm (joins : Joins table a b c) : Joins table b a c where
  left := joins.right
  right := joins.left
  least := fun bound right left => joins.least bound left right

theorem Joins.bounds_iff (top : (table objectName).superclass = none) (joins : Joins table a b c)
    (bound : String) : Bounds table c bound ↔ Bounds table a bound ∧ Bounds table b bound := by
  constructor
  · intro above
    exact ⟨joins.left.trans top above, joins.right.trans top above⟩
  · rintro ⟨left, right⟩
    exact joins.least bound left right

theorem Joins.orderly (orderly : OrderlyChain table a) (joins : Joins table a b c) :
    OrderlyChain table c ∨ c = objectName := joins.left.imp_left orderly.above

theorem eq_of_bounds_iff (top : (table objectName).superclass = none)
    (orderly : OrderlyChain table a ∨ a = objectName)
    (same : ∀ bound, Bounds table a bound ↔ Bounds table b bound) : a = b := by
  have up : Bounds table a b := (same b).2 (.inl .refl)
  have down : Bounds table b a := (same a).1 (.inl .refl)
  exact up.antisymm top orderly down

end Orders

/-! The walk finds the join. -/

section Walks

variable {table : String → TypeMetadata}

theorem pairwise_superclassesIn (table : String → TypeMetadata) (steps : Nat) (seen : List String)
    (start : Option String) :
    (superclassesIn table steps seen start).Pairwise (SuperAbove table) := by
  induction steps generalizing seen start with
  | zero => exact .nil
  | succ steps ih =>
    cases start with
    | none =>
      rw [superclassesIn_none]
      exact .nil
    | some name =>
      rw [superclassesIn_succ]
      split
      · exact .nil
      · refine List.pairwise_cons.2 ⟨fun above later => ?_, ih _ _⟩
        obtain ⟨next, declared, up⟩ := superAbove_of_mem later
        exact .head declared up

theorem firstShared_cases {names : List String} (rising : names.Pairwise (SuperAbove table))
    (others : List String) :
    (firstShared names others ∈ names ∧ firstShared names others ∈ others ∧
      ∀ name ∈ names, name ∈ others → SuperAbove table (firstShared names others) name) ∨
    (firstShared names others = objectName ∧ ∀ name ∈ names, name ∉ others) := by
  unfold firstShared
  cases found : names.find? (· ∈ others) with
  | none =>
    rw [List.find?_eq_none] at found
    exact .inr ⟨rfl, by simpa using found⟩
  | some first =>
    obtain ⟨shared, before, after, split, absent⟩ := List.find?_eq_some_iff_append.1 found
    rw [decide_eq_true_eq] at shared
    subst split
    refine .inl ⟨by simp, shared, fun name listed there => ?_⟩
    have upwards := (List.pairwise_cons.1 (List.pairwise_append.1 rising).2.1).1
    rcases List.mem_append.1 listed with earlier | later
    · have missing := absent name earlier
      simp [there] at missing
    · rcases List.mem_cons.1 later with rfl | above
      · exact .refl
      · exact upwards name above

variable {hierarchy : Hierarchy} {cache : MetadataCache}

theorem mem_superclassesIn_iff (same : hierarchy.view cache = table) {a b : String} :
    b ∈ superclassesIn table (hierarchy.steps cache) [] (some a) ↔ SuperAbove table a b := by
  constructor
  · intro member
    obtain ⟨_, ⟨⟩, up⟩ := superAbove_of_mem member
    exact up
  · exact mem_superclassesIn same

theorem mem_ancestors (same : hierarchy.view cache = table) {a b : String} :
    b ∈ hierarchy.ancestors cache a ↔ Bounds table a b := by
  have walk := (ensures_superclassChain (hierarchy.steps cache) [] (some a) cache same).1
  unfold Hierarchy.ancestors
  rw [walk, List.mem_append, List.mem_singleton, mem_superclassesIn_iff same]
  rfl

theorem joins_firstShared (same : hierarchy.view cache = table) (a b : String) :
    Joins table a b (firstShared (superclassesIn table (hierarchy.steps cache) [] (some b))
      (superclassesIn table (hierarchy.steps cache) [] (some a))) := by
  have rising := pairwise_superclassesIn table (hierarchy.steps cache) [] (some b)
  rcases firstShared_cases rising (superclassesIn table (hierarchy.steps cache) [] (some a)) with
    ⟨fromB, fromA, lowest⟩ | ⟨none, disjoint⟩
  · have upA := (mem_superclassesIn_iff same).1 fromA
    have upB := (mem_superclassesIn_iff same).1 fromB
    refine ⟨.inl upA, .inl upB, fun bound left right => ?_⟩
    rcases left with up | rfl
    · rcases right with above | rfl
      · have inB := mem_superclassesIn same above
        exact .inl (lowest bound inB (mem_superclassesIn same up))
      · exact .inr rfl
    · exact .inr rfl
  · rw [none]
    refine ⟨.inr rfl, .inr rfl, fun bound left right => ?_⟩
    rcases left with up | top
    · rcases right with above | top
      · exact absurd (mem_superclassesIn same up) (disjoint bound (mem_superclassesIn same above))
      · exact .inr top
    · exact .inr top

theorem joins_ancestorIn (same : hierarchy.view cache = table) {a b : String}
    (left : OrderlyChain table a ∨ a = objectName) (right : OrderlyChain table b ∨ b = objectName) :
    Joins table a b (ancestorIn table (hierarchy.steps cache) a b) := by
  by_cases equal : a = b
  · subst equal
    rw [ancestorIn_self]
    exact ⟨.inl .refl, .inl .refl, fun _ above _ => above⟩
  · have topped (one : a = objectName ∨ b = objectName) : Joins table a b objectName := by
      refine ⟨.inr rfl, .inr rfl, fun bound left right => ?_⟩
      rcases one with rfl | rfl
      · exact left
      · exact right
    have found := joins_firstShared same a b
    rw [ancestorIn_of_ne table equal]
    rcases left with left | left
    · rcases right with right | right
      · rw [left.classes a .refl, right.classes b .refl]
        exact found
      · rw [left.classes a .refl]
        cases (table b).isInterface
        · exact found
        · exact topped (.inr right)
    · rcases right with right | right
      · rw [right.classes b .refl]
        cases (table a).isInterface
        · exact found
        · exact topped (.inl left)
      · exact absurd (left.trans right.symm) equal

end Walks

/-! The answers that the resolver gives. -/

section Answers

variable {hierarchy : Hierarchy} {table : String → TypeMetadata}

theorem ensures_joins {a b : String}
    (left : OrderlyChain table a ∨ a = objectName) (right : OrderlyChain table b ∨ b = objectName) :
    Ensures hierarchy table (hierarchy.commonAncestor a b) (Joins table a b) := by
  refine (ensures_commonAncestor a b).mono ?_
  rintro answer ⟨cache, same, rfl⟩
  exact joins_ancestorIn same left right

theorem ensures_joins_left (top : (table objectName).superclass = none) {a b c : String}
    (first : OrderlyChain table a) (second : OrderlyChain table b) (third : OrderlyChain table c) :
    Ensures hierarchy table
      (hierarchy.commonAncestor a b >>= fun join => hierarchy.commonAncestor join c)
      fun answer => (OrderlyChain table answer ∨ answer = objectName) ∧ ∀ bound,
        Bounds table answer bound ↔ Bounds table a bound ∧ Bounds table b bound ∧
          Bounds table c bound := by
  refine .bind (ensures_joins (.inl first) (.inl second)) fun join joins => ?_
  have orderly := joins.orderly first
  refine (ensures_joins orderly (.inl third)).mono fun answer all => ?_
  refine ⟨all.symm.orderly third, fun bound => ?_⟩
  rw [all.bounds_iff top, joins.bounds_iff top, and_assoc]

theorem ensures_joins_right (top : (table objectName).superclass = none) {a b c : String}
    (first : OrderlyChain table a) (second : OrderlyChain table b) (third : OrderlyChain table c) :
    Ensures hierarchy table (hierarchy.commonAncestor b c >>= hierarchy.commonAncestor a)
      fun answer => ∀ bound, Bounds table answer bound ↔
        Bounds table a bound ∧ Bounds table b bound ∧ Bounds table c bound := by
  refine .bind (ensures_joins (.inl second) (.inl third)) fun join joins => ?_
  have orderly := joins.orderly second
  refine (ensures_joins (.inl first) orderly).mono fun answer all bound => ?_
  rw [all.bounds_iff top, joins.bounds_iff top]

end Answers

/-- The common ancestor of two classes lies among the ancestors of both, and all that the two share
lies among its own. So the answers commute, associate, and leave one class as it is, also for a
resolver that has learned other things, as long as it would say the same of every type. -/
theorem Hierarchy.commonAncestor_least {hierarchy : Hierarchy} {cache : MetadataCache}
    {a b c : String} (top : (hierarchy.view cache objectName).superclass = none)
    (first : OrderlyChain (hierarchy.view cache) a)
    (second : OrderlyChain (hierarchy.view cache) b)
    (third : OrderlyChain (hierarchy.view cache) c) :
    let join := (hierarchy.commonAncestor a b cache).1
    (join ∈ hierarchy.ancestors cache a ∧ join ∈ hierarchy.ancestors cache b ∧
      ∀ bound ∈ hierarchy.ancestors cache a, bound ∈ hierarchy.ancestors cache b →
        bound ∈ hierarchy.ancestors cache join) ∧
    ∀ other, hierarchy.view other = hierarchy.view cache →
      (hierarchy.commonAncestor b a other).1 = join ∧
      ((hierarchy.commonAncestor b c >>= hierarchy.commonAncestor a) other).1 =
        ((hierarchy.commonAncestor a b >>= fun join => hierarchy.commonAncestor join c) cache).1 ∧
      (hierarchy.commonAncestor a a other).1 = a := by
  intro join
  have joins : Joins (hierarchy.view cache) a b join :=
    (ensures_joins (.inl first) (.inl second) cache rfl).1
  constructor
  · simp only [mem_ancestors rfl]
    exact ⟨joins.left, joins.right, joins.least⟩
  · intro other same
    refine ⟨?_, ?_, ?_⟩
    · have swapped := (ensures_joins (.inl second) (.inl first) other same).1
      refine (eq_of_bounds_iff top (joins.orderly first) fun bound => ?_).symm
      rw [joins.bounds_iff top, swapped.bounds_iff top, and_comm]
    · obtain ⟨orderly, left⟩ := (ensures_joins_left top first second third cache rfl).1
      have right := (ensures_joins_right top first second third other same).1
      exact (eq_of_bounds_iff top orderly fun bound => (left bound).trans (right bound).symm).symm
    · obtain ⟨_, _, answer⟩ := (ensures_commonAncestor a a other same).1
      rw [answer, ancestorIn_self]

def rootlessCache : MetadataCache :=
  ⟨[⟨"app/Leaf", some "app/Base", [], false⟩, ⟨"app/Twig", some "app/Base", [], false⟩,
    ⟨"app/Base", none, [], false⟩]⟩

/-- A chain that ends before the top meets one that has no bytes at all. -/
theorem rootless_least :
    let hierarchy : Hierarchy := ⟨.empty, none⟩
    (hierarchy.view rootlessCache objectName).superclass = none ∧
      OrderlyChain (hierarchy.view rootlessCache) "app/Leaf" ∧
      (hierarchy.commonAncestor "app/Twig" "app/Leaf" rootlessCache).1 =
        (hierarchy.commonAncestor "app/Leaf" "app/Twig" rootlessCache).1 ∧
      (hierarchy.commonAncestor "app/Leaf" "app/Twig" rootlessCache).1 = "app/Base" ∧
      ((hierarchy.commonAncestor "app/Twig" "lib/Gone" >>= hierarchy.commonAncestor "app/Leaf")
          rootlessCache).1 =
        ((hierarchy.commonAncestor "app/Leaf" "app/Twig" >>= fun join =>
          hierarchy.commonAncestor join "lib/Gone") rootlessCache).1 := by
  intro hierarchy
  have loads (name : String) : hierarchy.load name = .fallback name := rfl
  have found (name : String) : hierarchy.view rootlessCache name =
      if "app/Leaf" = name then ⟨"app/Leaf", some "app/Base", [], false⟩
      else if "app/Twig" = name then ⟨"app/Twig", some "app/Base", [], false⟩
      else if "app/Base" = name then ⟨"app/Base", none, [], false⟩
      else .fallback name := by
    simp only [Hierarchy.view, MetadataCache.find?, rootlessCache, List.find?_cons, loads]
    grind
  have orderly (name : String) : OrderlyChain (hierarchy.view rootlessCache) name := by
    refine .of_rank (fun name => if name = objectName ∨ name = "app/Base" then 0 else 1) ?_ ?_
    · intro a b step
      rw [found] at step
      grind [TypeMetadata.fallback, objectName]
    · intro a
      rw [found]
      grind [TypeMetadata.fallback]
  have top : (hierarchy.view rootlessCache objectName).superclass = none := by decide
  obtain ⟨-, answers⟩ := Hierarchy.commonAncestor_least top (orderly "app/Leaf")
    (orderly "app/Twig") (orderly "lib/Gone")
  obtain ⟨swapped, grouped, -⟩ := answers rootlessCache rfl
  exact ⟨top, orderly _, swapped, by decide +kernel, grouped⟩

end ClassRenaming
