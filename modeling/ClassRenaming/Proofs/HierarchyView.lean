import ClassRenaming.Hierarchy.Resolver
import Mathlib.Logic.Relation

/-!
A hierarchy as the table that its answers come from. What is remembered for a name, or else what its
bytes say, never changes while questions are asked, so an answer is the answer of that table.
-/

namespace ClassRenaming

namespace Hierarchy

/-- The metadata that a question for a name gets. -/
def view (hierarchy : Hierarchy) (cache : MetadataCache) (name : String) : TypeMetadata :=
  (cache.find? name).getD (hierarchy.load name)

theorem load_name (hierarchy : Hierarchy) (name : String) : (hierarchy.load name).name = name := by
  unfold load
  split <;> rfl

theorem view_insert_load (hierarchy : Hierarchy) (cache : MetadataCache) (name : String) :
    hierarchy.view (cache.insert (hierarchy.load name)) = hierarchy.view cache := by
  funext other
  simp only [view, MetadataCache.find?_insert, load_name]
  by_cases same : name = other
  · subst same
    cases cache.find? name <;> simp
  · simp [same]

end Hierarchy

/-- A computation that, as long as the answers are those of one table, gives a result with a property
and leaves the answers as they are. -/
def Ensures {α : Type} (hierarchy : Hierarchy) (table : String → TypeMetadata)
    (action : Resolving α) (good : α → Prop) : Prop :=
  ∀ cache, hierarchy.view cache = table →
    good (action cache).1 ∧ hierarchy.view (action cache).2 = table

namespace Ensures

variable {α β : Type} {hierarchy : Hierarchy} {table : String → TypeMetadata}

theorem pure {value : α} {good : α → Prop} (h : good value) :
    Ensures hierarchy table (pure value) good := fun _ same => ⟨h, same⟩

theorem bind {action : Resolving α} {next : α → Resolving β} {good : α → Prop} {result : β → Prop}
    (first : Ensures hierarchy table action good)
    (second : ∀ value, good value → Ensures hierarchy table (next value) result) :
    Ensures hierarchy table (action >>= next) result := by
  intro cache same
  obtain ⟨found, still⟩ := first cache same
  exact second _ found _ still

theorem mono {action : Resolving α} {good better : α → Prop}
    (h : Ensures hierarchy table action good) (weaker : ∀ value, good value → better value) :
    Ensures hierarchy table action better := by
  intro cache same
  obtain ⟨found, still⟩ := h cache same
  exact ⟨weaker _ found, still⟩

theorem and {action : Resolving α} {good other : α → Prop}
    (h : Ensures hierarchy table action good) (also : Ensures hierarchy table action other) :
    Ensures hierarchy table action fun value => good value ∧ other value := by
  intro cache same
  obtain ⟨found, still⟩ := h cache same
  exact ⟨⟨found, (also cache same).1⟩, still⟩

theorem map {action : Resolving α} {f : α → β} {good : α → Prop} {result : β → Prop}
    (h : Ensures hierarchy table action good) (step : ∀ value, good value → result (f value)) :
    Ensures hierarchy table (f <$> action) result := by
  intro cache same
  obtain ⟨found, still⟩ := h cache same
  exact ⟨step _ found, still⟩

end Ensures

/-! The walks through a table that is at hand. -/

section Walks

variable (table : String → TypeMetadata)

def superclassesIn (steps : Nat) (seen : List String) (start : Option String) : List String :=
  superclassChain (m := Id) table steps seen start

def interfacesIn (steps : Nat) (seen stack : List String) : List String :=
  interfaceClosure (m := Id) table steps seen stack

def ancestorIn (steps : Nat) (a b : String) : String := commonAncestor (m := Id) table steps a b

theorem superclassesIn_none (steps : Nat) (seen : List String) :
    superclassesIn table steps seen none = [] := by
  cases steps <;> rfl

theorem superclassesIn_succ (steps : Nat) (seen : List String) (name : String) :
    superclassesIn table (steps + 1) seen (some name) =
      if name ∈ seen then []
      else name :: superclassesIn table steps (name :: seen) (table name).superclass := by
  simp only [superclassesIn, superclassChain]
  split <;> rfl

theorem interfacesIn_nil (steps : Nat) (seen : List String) :
    interfacesIn table steps seen [] = [] := by
  cases steps <;> rfl

theorem interfacesIn_succ (steps : Nat) (seen stack : List String) (name : String) :
    interfacesIn table (steps + 1) seen (name :: stack) =
      if name ∈ seen then interfacesIn table steps seen stack
      else name :: interfacesIn table steps (name :: seen) ((table name).interfaces ++ stack) := by
  simp only [interfacesIn, interfaceClosure]
  split <;> rfl

theorem ancestorIn_self (steps : Nat) (a : String) : ancestorIn table steps a a = a := by
  rw [ancestorIn, commonAncestor, if_pos rfl]
  rfl

theorem ancestorIn_of_ne {a b : String} (distinct : a ≠ b) (steps : Nat) :
    ancestorIn table steps a b =
      match (table a).isInterface, (table b).isInterface with
      | true, true =>
        firstShared (interfacesIn table steps [] [a]) (interfacesIn table steps [] [b])
      | false, false =>
        firstShared (superclassesIn table steps [] (some b)) (superclassesIn table steps [] (some a))
      | _, _ => objectName := by
  rw [ancestorIn, commonAncestor, if_neg distinct]
  rfl

end Walks

section Questions

variable {hierarchy : Hierarchy} {table : String → TypeMetadata}

theorem ensures_metadata (name : String) :
    Ensures hierarchy table (hierarchy.metadata name) (· = table name) := by
  intro cache same
  subst same
  cases found : cache.find? name with
  | some entry =>
    have run : hierarchy.metadata name cache = (entry, cache) := by
      simp only [Hierarchy.metadata, get, getThe, MonadStateOf.get, bind, StateT.bind, StateT.get,
        pure, found]
      rfl
    rw [run]
    exact ⟨by simp [Hierarchy.view, found], rfl⟩
  | none =>
    have run : hierarchy.metadata name cache =
        (hierarchy.load name, cache.insert (hierarchy.load name)) := by
      simp only [Hierarchy.metadata, get, getThe, MonadStateOf.get, bind, StateT.bind, StateT.get,
        pure, found]
      rfl
    rw [run]
    exact ⟨by simp [Hierarchy.view, found], hierarchy.view_insert_load cache name⟩

theorem ensures_superclassChain (steps : Nat) (seen : List String) (start : Option String) :
    Ensures hierarchy table (superclassChain hierarchy.metadata steps seen start)
      (· = superclassesIn table steps seen start) := by
  induction steps generalizing seen start with
  | zero => exact .pure rfl
  | succ steps ih =>
    cases start with
    | none => exact .pure rfl
    | some name =>
      rw [superclassChain, superclassesIn_succ]
      split
      · exact .pure rfl
      · refine .bind (ensures_metadata name) ?_
        rintro found rfl
        refine .bind (ih _ _) ?_
        rintro above rfl
        exact .pure rfl

theorem ensures_interfaceClosure (steps : Nat) (seen stack : List String) :
    Ensures hierarchy table (interfaceClosure hierarchy.metadata steps seen stack)
      (· = interfacesIn table steps seen stack) := by
  induction steps generalizing seen stack with
  | zero => exact .pure rfl
  | succ steps ih =>
    cases stack with
    | nil => exact .pure rfl
    | cons name stack =>
      rw [interfaceClosure, interfacesIn_succ]
      split
      · exact ih _ _
      · refine .bind (ensures_metadata name) ?_
        rintro found rfl
        refine .bind (ih _ _) ?_
        rintro others rfl
        exact .pure rfl

theorem ensures_commonInterface (steps : Nat) (a b : String) :
    Ensures hierarchy table (commonInterface hierarchy.metadata steps a b)
      (· = firstShared (interfacesIn table steps [] [a]) (interfacesIn table steps [] [b])) := by
  refine .bind (ensures_interfaceClosure steps [] [a]) ?_
  rintro names rfl
  refine .bind (ensures_interfaceClosure steps [] [b]) ?_
  rintro others rfl
  exact .pure rfl

theorem ensures_commonSuperclass (steps : Nat) (a b : String) :
    Ensures hierarchy table (commonSuperclass hierarchy.metadata steps a b)
      (· = firstShared (superclassesIn table steps [] (some b))
        (superclassesIn table steps [] (some a))) := by
  refine .bind (ensures_superclassChain steps [] (some a)) ?_
  rintro above rfl
  refine .bind (ensures_superclassChain steps [] (some b)) ?_
  rintro names rfl
  exact .pure rfl

theorem ensures_commonAncestorWithin (steps : Nat) (a b : String) :
    Ensures hierarchy table (commonAncestor hierarchy.metadata steps a b)
      (· = ancestorIn table steps a b) := by
  by_cases same : a = b
  · rw [commonAncestor, if_pos same, same, ancestorIn_self]
    exact .pure rfl
  · rw [commonAncestor, if_neg same, ancestorIn_of_ne table same]
    refine .bind (ensures_metadata a) ?_
    rintro left rfl
    refine .bind (ensures_metadata b) ?_
    rintro right rfl
    cases (table a).isInterface <;> cases (table b).isInterface
    · exact ensures_commonSuperclass steps a b
    · exact .pure rfl
    · exact .pure rfl
    · exact ensures_commonInterface steps a b

theorem ensures_commonAncestor (a b : String) :
    Ensures hierarchy table (hierarchy.commonAncestor a b) (fun answer =>
      ∃ cache, hierarchy.view cache = table ∧
        answer = ancestorIn table (hierarchy.steps cache) a b) := by
  intro cache same
  obtain ⟨found, still⟩ := ensures_commonAncestorWithin (hierarchy.steps cache) a b cache same
  exact ⟨⟨cache, same, found⟩, still⟩

end Questions

/-! Answers lie above what was asked for. -/

/-- One step up: to the superclass or to a declared interface. -/
def DeclaredAbove (table : String → TypeMetadata) (a b : String) : Prop :=
  (table a).superclass = some b ∨ b ∈ (table a).interfaces

abbrev Above (table : String → TypeMetadata) : String → String → Prop :=
  Relation.ReflTransGen (DeclaredAbove table)

abbrev SuperAbove (table : String → TypeMetadata) : String → String → Prop :=
  Relation.ReflTransGen fun a b => (table a).superclass = some b

abbrev InterfaceAbove (table : String → TypeMetadata) : String → String → Prop :=
  Relation.ReflTransGen fun a b => b ∈ (table a).interfaces

section Answers

variable {table : String → TypeMetadata}

theorem above_of_superAbove {a b : String} (h : SuperAbove table a b) : Above table a b := by
  induction h with
  | refl => exact .refl
  | tail _ step ih => exact ih.tail (.inl step)

theorem above_of_interfaceAbove {a b : String} (h : InterfaceAbove table a b) :
    Above table a b := by
  induction h with
  | refl => exact .refl
  | tail _ step ih => exact ih.tail (.inr step)

theorem superAbove_of_mem {steps : Nat} {seen : List String} {start : Option String}
    {name : String} (member : name ∈ superclassesIn table steps seen start) :
    ∃ first, start = some first ∧ SuperAbove table first name := by
  induction steps generalizing seen start with
  | zero => cases member
  | succ steps ih =>
    cases start with
    | none => cases member
    | some first =>
      refine ⟨first, rfl, ?_⟩
      rw [superclassesIn_succ] at member
      split at member
      · cases member
      · rcases List.mem_cons.1 member with rfl | later
        · exact .refl
        · obtain ⟨next, declared, above⟩ := ih later
          exact .head declared above

theorem interfaceAbove_of_mem {steps : Nat} {seen stack : List String} {name : String}
    (member : name ∈ interfacesIn table steps seen stack) :
    ∃ start ∈ stack, InterfaceAbove table start name := by
  induction steps generalizing seen stack with
  | zero => cases member
  | succ steps ih =>
    cases stack with
    | nil => cases member
    | cons first stack =>
      rw [interfacesIn_succ] at member
      split at member
      · obtain ⟨start, listed, above⟩ := ih member
        exact ⟨start, List.mem_cons_of_mem _ listed, above⟩
      · rcases List.mem_cons.1 member with rfl | later
        · exact ⟨name, List.mem_cons_self, .refl⟩
        · obtain ⟨start, listed, above⟩ := ih later
          rcases List.mem_append.1 listed with declared | waiting
          · exact ⟨first, List.mem_cons_self, .head declared above⟩
          · exact ⟨start, List.mem_cons_of_mem _ waiting, above⟩

theorem firstShared_mem_or (names others : List String) :
    (firstShared names others ∈ names ∧ firstShared names others ∈ others) ∨
      firstShared names others = objectName := by
  unfold firstShared
  cases found : names.find? (· ∈ others) with
  | none => exact .inr rfl
  | some name =>
    refine .inl ⟨List.mem_of_find?_eq_some found, ?_⟩
    simpa using List.find?_some found

theorem above_ancestorIn (steps : Nat) (a b : String) :
    (Above table a (ancestorIn table steps a b) ∧ Above table b (ancestorIn table steps a b)) ∨
      ancestorIn table steps a b = objectName := by
  by_cases same : a = b
  · subst same
    rw [ancestorIn_self]
    exact .inl ⟨.refl, .refl⟩
  · rw [ancestorIn_of_ne table same]
    cases (table a).isInterface <;> cases (table b).isInterface
    · refine (firstShared_mem_or _ _).imp_left ?_
      rintro ⟨right, left⟩
      obtain ⟨_, ⟨⟩, fromA⟩ := superAbove_of_mem left
      obtain ⟨_, ⟨⟩, fromB⟩ := superAbove_of_mem right
      exact ⟨above_of_superAbove fromA, above_of_superAbove fromB⟩
    · exact .inr rfl
    · exact .inr rfl
    · refine (firstShared_mem_or _ _).imp_left ?_
      rintro ⟨left, right⟩
      obtain ⟨first, listed, fromA⟩ := interfaceAbove_of_mem left
      obtain ⟨other, waiting, fromB⟩ := interfaceAbove_of_mem right
      rw [List.mem_singleton.1 listed] at fromA
      rw [List.mem_singleton.1 waiting] at fromB
      exact ⟨above_of_interfaceAbove fromA, above_of_interfaceAbove fromB⟩

end Answers

end ClassRenaming
