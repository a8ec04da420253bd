import ClassRenaming.Proofs.RelabeledStates
import ClassRenaming.Proofs.SameAnswers

/-!
Merging states with new names, where the hierarchy has new names as well. A walk up looks at names
only to tell them apart, so it goes the same way under new names; and an array has the dimensions
that it had before.
-/

namespace ClassRenaming

section Entries

variable (f : Relabeling)

def TypeMetadata.relabel (entry : TypeMetadata) : TypeMetadata where
  name := f.name entry.name
  superclass := entry.superclass.map f.name
  interfaces := entry.interfaces.map f.name
  isInterface := entry.isInterface

def MetadataCache.relabel (cache : MetadataCache) : MetadataCache :=
  ⟨cache.entries.map (TypeMetadata.relabel f)⟩

theorem find?_relabel (cache : MetadataCache) (name : String) :
    (cache.relabel f).find? (f.name name) = (cache.find? name).map (TypeMetadata.relabel f) := by
  have same : ((·.name == f.name name) ∘ TypeMetadata.relabel f) = (·.name == name) := by
    funext entry
    rw [Bool.eq_iff_iff]
    simp only [Function.comp_apply, TypeMetadata.relabel, beq_iff_eq, name_eq_iff]
  rw [MetadataCache.find?, MetadataCache.relabel, List.find?_map, same, MetadataCache.find?]

theorem fallback_relabel (name : String) :
    TypeMetadata.fallback (f.name name) = (TypeMetadata.fallback name).relabel f := by
  simp only [TypeMetadata.fallback, TypeMetadata.relabel, name_eq_object_iff, List.map_nil]
  split
  · rfl
  · rw [Option.map_some, name_object]

theorem named_fallback (name : String) : (TypeMetadata.fallback name).Named ProperCore := by
  constructor
  · intro super known
    rw [TypeMetadata.fallback] at known
    split at known
    · cases known
    · cases known
      exact properCore_object
  · intro super member
    cases member

theorem view_relabel (cache : MetadataCache) (name : String) :
    (Hierarchy.mk .empty none).view (cache.relabel f) (f.name name) =
      ((Hierarchy.mk .empty none).view cache name).relabel f := by
  have load (name : String) : (Hierarchy.mk .empty none).load name = .fallback name := rfl
  rw [Hierarchy.view, Hierarchy.view, find?_relabel, load, load, fallback_relabel]
  cases cache.find? name <;> rfl

end Entries

/-! The slots of states, one by one. -/

theorem forall₂_becomes_iff {f : Relabeling} {slots others : List VerificationType} :
    List.Forall₂ (VerificationType.Becomes f) slots others ↔
      others = slots.map (VerificationType.relabel f) ∧ ∀ type ∈ slots, type.Named WellNamed := by
  constructor
  · intro both
    induction both with
    | nil => exact ⟨rfl, nofun⟩
    | cons first rest ih =>
      obtain ⟨rfl, named⟩ := first
      obtain ⟨rfl, later⟩ := ih
      exact ⟨rfl, List.forall_mem_cons.2 ⟨named, later⟩⟩
  · rintro ⟨rfl, named⟩
    apply List.forall₂_map_right_iff.2
    apply List.forall₂_same.2
    intro type listed
    exact ⟨rfl, named type listed⟩

namespace FrameState.Becomes

variable {f : Relabeling} {state other : FrameState}

theorem locals (h : state.Becomes f other) :
    List.Forall₂ (VerificationType.Becomes f) state.locals other.locals := by
  obtain ⟨rfl, named⟩ := h
  exact forall₂_becomes_iff.2 ⟨rfl, named.locals⟩

theorem stack (h : state.Becomes f other) :
    List.Forall₂ (VerificationType.Becomes f) state.stack other.stack := by
  obtain ⟨rfl, named⟩ := h
  exact forall₂_becomes_iff.2 ⟨rfl, named.stack⟩

theorem ofSlots {locals stack others more : List VerificationType}
    (here : List.Forall₂ (VerificationType.Becomes f) locals others)
    (there : List.Forall₂ (VerificationType.Becomes f) stack more) :
    FrameState.Becomes f ⟨locals, stack⟩ ⟨others, more⟩ := by
  obtain ⟨rfl, first⟩ := forall₂_becomes_iff.1 here
  obtain ⟨rfl, second⟩ := forall₂_becomes_iff.1 there
  exact ⟨rfl, first, second⟩

end FrameState.Becomes

/-- Two hierarchies, with the tables that their answers come from. What the first knows of a type the
second knows of its new name; and declared supertypes can stand in descriptors. -/
structure Twins (f : Relabeling) where
  first : Hierarchy
  second : Hierarchy
  table : String → TypeMetadata
  other : String → TypeMetadata
  entries : ∀ name, other (f.name name) = (table name).relabel f
  named : ∀ name, (table name).Named ProperCore

namespace Twins

variable {f : Relabeling} (twins : Twins f)

def Pairs {α β : Type} (related : α → β → Prop) (action : Resolving α) (other : Resolving β) :
    Prop :=
  ∀ cache after, twins.first.view cache = twins.table → twins.second.view after = twins.other →
    related (action cache).1 (other after).1 ∧
      twins.first.view (action cache).2 = twins.table ∧
        twins.second.view (other after).2 = twins.other

namespace Pairs

variable {twins} {α β γ δ : Type} {related : α → β → Prop} {results : γ → δ → Prop}
  {action : Resolving α} {other : Resolving β}

theorem pure {a : α} {b : β} (both : related a b) : twins.Pairs related (pure a) (pure b) :=
  fun _ _ same also => ⟨both, same, also⟩

theorem bind {next : α → Resolving γ} {others : β → Resolving δ}
    (h : twins.Pairs related action other)
    (each : ∀ a b, related a b → twins.Pairs results (next a) (others b)) :
    twins.Pairs results (action >>= next) (other >>= others) := by
  intro cache after same also
  obtain ⟨both, still, too⟩ := h cache after same also
  exact each _ _ both _ _ still too

theorem map {g : α → γ} {k : β → δ} (h : twins.Pairs related action other)
    (each : ∀ a b, related a b → results (g a) (k b)) :
    twins.Pairs results (g <$> action) (k <$> other) := by
  intro cache after same also
  obtain ⟨both, still, too⟩ := h cache after same also
  exact ⟨each _ _ both, still, too⟩

theorem of_ensures {good : α → Prop} {better : β → Prop}
    (left : Ensures twins.first twins.table action good)
    (right : Ensures twins.second twins.other other better)
    (both : ∀ a b, good a → better b → related a b) : twins.Pairs related action other := by
  intro cache after same also
  obtain ⟨found, still⟩ := left cache same
  obtain ⟨there, too⟩ := right after also
  exact ⟨both _ _ found there, still, too⟩

end Pairs

theorem superclassesIn_relabel (steps : Nat) (seen : List String) (start : Option String) :
    superclassesIn twins.other steps (seen.map f.name) (start.map f.name) =
      (superclassesIn twins.table steps seen start).map f.name := by
  induction steps generalizing seen start with
  | zero => rfl
  | succ steps ih =>
    cases start with
    | none => rfl
    | some name =>
      rw [Option.map_some, superclassesIn_succ, superclassesIn_succ, twins.entries]
      by_cases known : name ∈ seen
      · rw [if_pos known, if_pos (List.mem_map_of_mem known)]
        rfl
      · have fresh : f.name name ∉ seen.map f.name :=
          fun listed => known ((List.mem_map_of_injective (name_injective f)).1 listed)
        rw [if_neg known, if_neg fresh, List.map_cons, ← ih, List.map_cons]
        rfl

theorem interfacesIn_relabel (steps : Nat) (seen stack : List String) :
    interfacesIn twins.other steps (seen.map f.name) (stack.map f.name) =
      (interfacesIn twins.table steps seen stack).map f.name := by
  induction steps generalizing seen stack with
  | zero => rfl
  | succ steps ih =>
    cases stack with
    | nil => rfl
    | cons name stack =>
      rw [List.map_cons, interfacesIn_succ, interfacesIn_succ, twins.entries]
      by_cases known : name ∈ seen
      · rw [if_pos known, if_pos (List.mem_map_of_mem known)]
        exact ih seen stack
      · have fresh : f.name name ∉ seen.map f.name :=
          fun listed => known ((List.mem_map_of_injective (name_injective f)).1 listed)
        rw [if_neg known, if_neg fresh, List.map_cons, ← ih, List.map_cons, List.map_append]
        rfl

theorem firstShared_map (names others : List String) :
    firstShared (names.map f.name) (others.map f.name) = f.name (firstShared names others) := by
  unfold firstShared
  rw [List.find?_map]
  simp only [Function.comp_def, List.mem_map_of_injective (name_injective f)]
  cases names.find? (· ∈ others) with
  | none => exact name_object.symm
  | some name => rfl

theorem ancestorIn_relabel (steps : Nat) (a b : String) :
    ancestorIn twins.other steps (f.name a) (f.name b) =
      f.name (ancestorIn twins.table steps a b) := by
  by_cases same : a = b
  · rw [same, ancestorIn_self, ancestorIn_self]
  · have differ : f.name a ≠ f.name b := fun equal => same (name_injective f equal)
    have chains (name : String) : superclassesIn twins.other steps [] (some (f.name name)) =
        (superclassesIn twins.table steps [] (some name)).map f.name :=
      twins.superclassesIn_relabel steps [] (some name)
    have closures (name : String) : interfacesIn twins.other steps [] [f.name name] =
        (interfacesIn twins.table steps [] [name]).map f.name :=
      twins.interfacesIn_relabel steps [] [name]
    rw [ancestorIn_of_ne _ same, ancestorIn_of_ne _ differ, twins.entries, twins.entries, chains,
      chains, closures, closures, firstShared_map, firstShared_map]
    simp only [TypeMetadata.relabel]
    cases (twins.table a).isInterface <;> cases (twins.table b).isInterface
    · rfl
    · exact name_object.symm
    · exact name_object.symm
    · rfl

theorem properCore_of_above {a b : String} (above : Above twins.table a b) : b = a ∨ ProperCore b := by
  cases above with
  | refl => exact .inl rfl
  | tail _ declared =>
    rcases declared with super | interface
    · exact .inr ((twins.named _).superclass _ super)
    · exact .inr ((twins.named _).interfaces _ interface)

structure Follows (f : Relabeling) (before name other : String) : Prop where
  relabeled : other = f.name name
  named : WellNamed before → WellNamed name
  core : ProperCore before → ProperCore name

theorem follows_of_core {before name : String} (core : ProperCore name) :
    Follows f before name (f.name name) := ⟨rfl, fun _ => .inr core, fun _ => core⟩

theorem pairs_commonAncestor (a b : String) : twins.Pairs (Follows f a)
    (twins.first.commonAncestor a b) (twins.second.commonAncestor (f.name a) (f.name b)) := by
  apply Pairs.of_ensures (ensures_commonAncestor a b) (ensures_commonAncestor (f.name a) (f.name b))
  rintro _ _ ⟨cache, same, rfl⟩ ⟨after, also, rfl⟩
  -- The walks of both sides may take as many steps as the longer of them.
  let steps := max (twins.first.steps cache) (twins.second.steps after)
  rw [← ancestorIn_of_steps_le same (Nat.le_max_left _ _ : _ ≤ steps),
    ← ancestorIn_of_steps_le also (Nat.le_max_right _ _ : _ ≤ steps), ancestorIn_relabel]
  have found : (Above twins.table a (ancestorIn twins.table steps a b) ∧ _) ∨ _ :=
    above_ancestorIn steps a b
  rcases found with ⟨above, -⟩ | top
  · rcases twins.properCore_of_above above with itself | core
    · rw [itself]
      exact ⟨rfl, id, id⟩
    · exact follows_of_core core
  · rw [top]
    exact follows_of_core properCore_object

theorem follows_object (before : String) (dimensions : Nat) :
    Follows f before (arrayName dimensions objectName) (arrayName dimensions objectName) := by
  have core : ProperCore (arrayName dimensions objectName) := by
    by_cases zero : dimensions = 0
    · rw [zero]
      exact properCore_object
    · exact (properCore_array zero).2 properCore_object
  refine ⟨?_, fun _ => .inr core, fun _ => core⟩
  rw [name_arrayName name_object]

theorem mergeReferences_of_elements (hierarchy : Hierarchy) {a b x y : String} (left : ¬ IsPlain a)
    (right : ¬ IsPlain b)
    (ofA : Descriptor.internalName? (String.ofList (splitArray a.toList).2) = some x)
    (ofB : Descriptor.internalName? (String.ofList (splitArray b.toList).2) = some y) :
    hierarchy.mergeReferences a b =
      if (splitArray a.toList).1 = (splitArray b.toList).1 then
        arrayName (splitArray a.toList).1 <$> hierarchy.mergeReferences x y
      else pure (arrayName
        (sharedDimensions (splitArray a.toList).1 (splitArray b.toList).1 true true) objectName) := by
  rw [Hierarchy.mergeReferences, if_neg fun both => left both.1, if_neg fun one => one.elim left right]
  split
  · next x' y' left' right' =>
    cases left'.symm.trans ofA
    cases right'.symm.trans ofB
    rfl
  · next apart => exact absurd ofB (apart x y ofA)

theorem mergeReferences_of_base (hierarchy : Hierarchy) {a b : String} (left : ¬ IsPlain a)
    (right : ¬ IsPlain b)
    (apart : ∀ x y, Descriptor.internalName? (String.ofList (splitArray a.toList).2) = some x →
      Descriptor.internalName? (String.ofList (splitArray b.toList).2) = some y → False) :
    hierarchy.mergeReferences a b = pure (arrayName
      (sharedDimensions (splitArray a.toList).1 (splitArray b.toList).1
        (Descriptor.internalName? (String.ofList (splitArray a.toList).2)).isSome
        (Descriptor.internalName? (String.ofList (splitArray b.toList).2)).isSome) objectName) := by
  rw [Hierarchy.mergeReferences, if_neg fun both => left both.1, if_neg fun one => one.elim left right]
  split
  · next x y ofA ofB => exact (apart x y ofA ofB).elim
  · rfl

theorem mergeReferences_of_plain (hierarchy : Hierarchy) {a b : String} (left : IsPlain a)
    (right : IsPlain b) : hierarchy.mergeReferences a b = hierarchy.commonAncestor a b := by
  rw [Hierarchy.mergeReferences, if_pos ⟨left, right⟩]

theorem mergeReferences_of_mixed (hierarchy : Hierarchy) {a b : String}
    (notBoth : ¬ (IsPlain a ∧ IsPlain b)) (one : IsPlain a ∨ IsPlain b) :
    hierarchy.mergeReferences a b = pure objectName := by
  rw [Hierarchy.mergeReferences]
  exact (if_neg notBoth).trans (if_pos one)

theorem pairs_mergeReferences (a b : String) (named : WellNamed a) : twins.Pairs (Follows f a)
    (twins.first.mergeReferences a b) (twins.second.mergeReferences (f.name a) (f.name b)) := by
  induction length : a.toList.length using Nat.strongRecOn generalizing a b with
  | ind size ih =>
    have sameLeft : IsPlain (f.name a) ↔ IsPlain a := isPlain_name_iff
    have sameRight : IsPlain (f.name b) ↔ IsPlain b := isPlain_name_iff
    by_cases both : IsPlain a ∧ IsPlain b
    · rw [mergeReferences_of_plain _ both.1 both.2,
        mergeReferences_of_plain _ (sameLeft.2 both.1) (sameRight.2 both.2)]
      exact twins.pairs_commonAncestor a b
    by_cases one : IsPlain a ∨ IsPlain b
    · rw [mergeReferences_of_mixed _ both one,
        mergeReferences_of_mixed _ (by rwa [sameLeft, sameRight]) (by rwa [sameLeft, sameRight])]
      exact .pure (follows_object a 0)
    obtain ⟨left, right⟩ := not_or.1 one
    have newLeft : ¬ IsPlain (f.name a) := by rwa [sameLeft]
    have newRight : ¬ IsPlain (f.name b) := by rwa [sameRight]
    have ofNewA := element_name (f := f) left
    have ofNewB := element_name (f := f) right
    cases ofA : Descriptor.internalName? (String.ofList (splitArray a.toList).2) with
    | none =>
      rw [ofA, Option.map_none] at ofNewA
      rw [mergeReferences_of_base _ left right (by rw [ofA]; nofun),
        mergeReferences_of_base _ newLeft newRight (by rw [ofNewA]; nofun), ofA, ofNewA, ofNewB,
        Option.isSome_map, dimensions_name, dimensions_name]
      exact .pure (follows_object a _)
    | some x =>
      rw [ofA, Option.map_some] at ofNewA
      cases ofB : Descriptor.internalName? (String.ofList (splitArray b.toList).2) with
      | none =>
        rw [ofB, Option.map_none] at ofNewB
        rw [mergeReferences_of_base _ left right (by rw [ofB]; nofun),
          mergeReferences_of_base _ newLeft newRight (by rw [ofNewB]; nofun), ofA, ofNewA, ofB, ofNewB,
          dimensions_name, dimensions_name]
        exact .pure (follows_object a _)
      | some y =>
        rw [ofB, Option.map_some] at ofNewB
        rw [mergeReferences_of_elements _ left right ofA ofB,
          mergeReferences_of_elements _ newLeft newRight ofNewA ofNewB, dimensions_name,
          dimensions_name]
        split
        · have core : ProperCore x := by
            have whole := named.resolve_left left
            rwa [eq_arrayName left ofA, properCore_array left] at whole
          have shorter : x.toList.length < size := length ▸ length_element ofA
          apply (ih _ shorter x y (.inr core) rfl).map
          rintro element _ ⟨rfl, -, inner⟩
          rw [← name_array left]
          exact follows_of_core ((properCore_array left).2 (inner core))
        · exact .pure (follows_object a _)

theorem pairs_mergeTypes {a b x y : VerificationType} (left : a.Becomes f x) (right : b.Becomes f y) :
    twins.Pairs (VerificationType.Becomes f) (twins.first.mergeTypes a b)
      (twins.second.mergeTypes x y) := by
  obtain ⟨rfl, left⟩ := left
  obtain ⟨rfl, right⟩ := right
  unfold Hierarchy.mergeTypes
  by_cases same : a = b
  · rw [if_pos same, if_pos (congrArg _ same)]
    exact .pure ⟨rfl, left⟩
  · have differ : a.relabel f ≠ b.relabel f :=
      fun equal => same (VerificationType.relabel_injective f equal)
    rw [if_neg same, if_neg differ]
    cases a <;> cases b
    case object.object a b =>
      apply (twins.pairs_mergeReferences a b left).bind
      rintro merged _ ⟨rfl, named, -⟩
      exact .pure (.object (named left))
    case object.null name => exact .pure (.object left)
    case null.object name => exact .pure (.object right)
    all_goals exact .pure ⟨rfl, trivial⟩

theorem pairs_mergeSlots {slots others left right : List VerificationType}
    (here : List.Forall₂ (VerificationType.Becomes f) slots left)
    (there : List.Forall₂ (VerificationType.Becomes f) others right) :
    twins.Pairs (List.Forall₂ (VerificationType.Becomes f)) (twins.first.mergeSlots slots others)
      (twins.second.mergeSlots left right) := by
  have top : VerificationType.top.Becomes f .top := .self nofun
  induction here generalizing others right with
  | nil =>
    unfold Hierarchy.mergeSlots
    induction there with
    | nil => exact .pure .nil
    | cons both rest ih =>
      rw [List.mapM_cons, List.mapM_cons]
      apply (twins.pairs_mergeTypes top both).bind
      intro merged result first
      apply ih.bind
      intro more results later
      exact .pure (.cons first later)
  | cons both rest ih =>
    have heads : (others.head?.getD .top).Becomes f (right.head?.getD .top) := by
      cases there with
      | nil => exact top
      | cons both rest => exact both
    have tails : List.Forall₂ (VerificationType.Becomes f) others.tail right.tail := by
      cases there with
      | nil => exact .nil
      | cons both rest => exact rest
    unfold Hierarchy.mergeSlots
    apply (twins.pairs_mergeTypes both heads).bind
    intro merged result first
    apply (ih tails).bind
    intro more results later
    exact .pure (.cons first later)

theorem pairs_mergeStates {recorded incoming left right : FrameState}
    (here : recorded.Becomes f left) (there : incoming.Becomes f right) :
    twins.Pairs (FrameState.Becomes f) (twins.first.mergeStates recorded incoming)
      (twins.second.mergeStates left right) := by
  apply (twins.pairs_mergeSlots here.locals there.locals).bind
  intro locals others first
  apply (twins.pairs_mergeSlots here.stack there.stack).bind
  intro stack more second
  exact .pure (.ofSlots first second)

end Twins

end ClassRenaming
