import ClassRenaming.Proofs.WalkBounds

/-!
The common ancestor of two interfaces. It is the first interface, in the walk up from one of them,
that the other one extends too. No shared interface lies below it, whatever the other one is, exactly
when that walk lists every interface before those that it extends. A walk does where no interface is
extended by two others on the way, but not up a diamond: the interface on its top comes before one
of its sides.
-/

namespace ClassRenaming

def Hierarchy.extended (hierarchy : Hierarchy) (cache : MetadataCache) (name : String) :
    List String :=
  (interfaceClosure hierarchy.metadata (hierarchy.steps cache) [] [name] cache).1

def InterfacesMeet (table : String → TypeMetadata) (a b : String) : Prop :=
  ∃ shared, InterfaceAbove table a shared ∧ InterfaceAbove table b shared

/-- An interface that two others extend, with no other such interface below it. -/
structure Nearest (table : String → TypeMetadata) (a b nearest : String) : Prop where
  left : InterfaceAbove table a nearest
  right : InterfaceAbove table b nearest
  lowest : ∀ shared, InterfaceAbove table a shared → InterfaceAbove table b shared →
    InterfaceAbove table shared nearest → shared = nearest

def OrderlyExtension (table : String → TypeMetadata) (name : String) : Prop :=
  ∀ above, InterfaceAbove table name above →
    ¬ Relation.TransGen (fun a b => b ∈ (table a).interfaces) above above

def ExtendsInterfaces (table : String → TypeMetadata) (name : String) : Prop :=
  ∀ above, InterfaceAbove table name above → (table above).interfaces ≠ [] →
    (table above).isInterface = true

namespace Hierarchy

variable (hierarchy : Hierarchy) (cache : MetadataCache) (name : String)

def ListsUpwards : Prop :=
  (hierarchy.extended cache name).Pairwise fun first second =>
    ¬ InterfaceAbove (hierarchy.view cache) second first

def NearestFrom : Prop :=
  ∀ other, other ≠ name → (hierarchy.view cache other).isInterface = true →
    InterfacesMeet (hierarchy.view cache) name other →
      Nearest (hierarchy.view cache) name other (hierarchy.commonAncestor name other cache).1

end Hierarchy

section Walks

variable {table : String → TypeMetadata}

theorem nodup_interfacesIn (table : String → TypeMetadata) (steps : Nat) (seen stack : List String) :
    (interfacesIn table steps seen stack).Nodup ∧
      ∀ name ∈ interfacesIn table steps seen stack, name ∉ seen := by
  induction steps generalizing seen stack with
  | zero => exact ⟨.nil, fun _ member => nomatch member⟩
  | succ steps ih =>
    cases stack with
    | nil =>
      rw [interfacesIn_nil]
      exact ⟨.nil, fun _ member => nomatch member⟩
    | cons first stack =>
      rw [interfacesIn_succ]
      split
      · exact ih seen stack
      · next new =>
        obtain ⟨distinct, unseen⟩ := ih (first :: seen) ((table first).interfaces ++ stack)
        refine ⟨List.nodup_cons.2 ⟨fun member => ?_, distinct⟩, fun name member => ?_⟩
        · exact unseen first member List.mem_cons_self
        · rcases List.mem_cons.1 member with rfl | later
          · exact new
          · exact fun old => unseen name later (List.mem_cons_of_mem _ old)

theorem firstShared_split {names others : List String} {shared : String} (listed : shared ∈ names)
    (there : shared ∈ others) : ∃ first before after, firstShared names others = first ∧
      names = before ++ first :: after ∧ first ∈ others ∧ ∀ name ∈ before, name ∉ others := by
  unfold firstShared
  cases found : names.find? (· ∈ others) with
  | none =>
    rw [List.find?_eq_none] at found
    exact absurd there (by simpa using found shared listed)
  | some first =>
    obtain ⟨member, before, after, split, absent⟩ := List.find?_eq_some_iff_append.1 found
    exact ⟨first, before, after, rfl, split, by simpa using member, by simpa using absent⟩

theorem mem_of_sublist_split {α : Type} {before after : List α} {first second : α}
    (distinct : (before ++ second :: after).Nodup)
    (order : [first, second].Sublist (before ++ second :: after)) : first ∈ before := by
  obtain ⟨front, back, split, low, high⟩ := List.sublist_append_iff.1 order
  have once := (List.nodup_cons.1 (List.nodup_append.1 distinct).2.1).1
  cases front with
  | nil =>
    rw [List.nil_append] at split
    subst split
    exact absurd (List.singleton_sublist.1 high.of_cons_cons) once
  | cons item front =>
    rw [(List.cons.inj split).1]
    exact low.subset List.mem_cons_self

theorem exists_extending {steps : Nat} {seen stack before after : List String} {name : String}
    (split : interfacesIn table steps seen stack = before ++ name :: after) :
    name ∈ stack ∨ ∃ lower ∈ before, name ∈ (table lower).interfaces := by
  induction steps generalizing seen stack before with
  | zero => cases before <;> cases split
  | succ steps ih =>
    cases stack with
    | nil =>
      rw [interfacesIn_nil] at split
      cases before <;> cases split
    | cons first stack =>
      rw [interfacesIn_succ] at split
      split at split
      · exact (ih split).imp_left (List.mem_cons_of_mem _)
      · cases before with
        | nil =>
          rw [(List.cons.inj split).1]
          exact .inl List.mem_cons_self
        | cons head before =>
          obtain ⟨rfl, later⟩ := List.cons.inj split
          rcases ih later with waiting | ⟨lower, earlier, extends_⟩
          · rcases List.mem_append.1 waiting with declared | there
            · exact .inr ⟨first, List.mem_cons_self, declared⟩
            · exact .inl (List.mem_cons_of_mem _ there)
          · exact .inr ⟨lower, List.mem_cons_of_mem _ earlier, extends_⟩

theorem firstShared_of_disjoint {names others : List String}
    (disjoint : ∀ name ∈ names, name ∉ others) : firstShared names others = objectName := by
  unfold firstShared
  rw [List.find?_eq_none.2 (by simpa using disjoint)]
  rfl

end Walks

section Answers

variable {hierarchy : Hierarchy} {cache : MetadataCache} {a b : String}

theorem extended_eq (hierarchy : Hierarchy) (cache : MetadataCache) (name : String) :
    hierarchy.extended cache name =
      interfacesIn (hierarchy.view cache) (hierarchy.steps cache) [] [name] :=
  (ensures_interfaceClosure (hierarchy.steps cache) [] [name] cache rfl).1

theorem mem_extended {name : String} :
    name ∈ hierarchy.extended cache a ↔ InterfaceAbove (hierarchy.view cache) a name := by
  rw [extended_eq]
  constructor
  · intro member
    obtain ⟨start, listed, up⟩ := interfaceAbove_of_mem member
    rwa [List.mem_singleton.1 listed] at up
  · exact mem_interfacesIn rfl

theorem nodup_extended (hierarchy : Hierarchy) (cache : MetadataCache) (name : String) :
    (hierarchy.extended cache name).Nodup := by
  rw [extended_eq]
  exact (nodup_interfacesIn _ _ _ _).1

theorem extended_eq_cons (hierarchy : Hierarchy) (cache : MetadataCache) (name : String) :
    ∃ rest, hierarchy.extended cache name = name :: rest := by
  obtain ⟨steps, more⟩ := Nat.exists_eq_add_of_lt (declared_lt_steps hierarchy cache).1
  rw [extended_eq, more, interfacesIn_succ, if_neg List.not_mem_nil]
  exact ⟨_, rfl⟩

theorem commonAncestor_of_interfaces (distinct : a ≠ b)
    (left : (hierarchy.view cache a).isInterface = true)
    (right : (hierarchy.view cache b).isInterface = true) :
    (hierarchy.commonAncestor a b cache).1 =
      firstShared (hierarchy.extended cache a) (hierarchy.extended cache b) := by
  have answer : (hierarchy.commonAncestor a b cache).1 = _ :=
    (ensures_commonAncestorWithin (hierarchy.steps cache) a b cache rfl).1
  rw [answer, ancestorIn_of_ne _ distinct, left, right, extended_eq, extended_eq]

theorem exists_firstShared (meets : InterfacesMeet (hierarchy.view cache) a b) :
    ∃ first before after,
      firstShared (hierarchy.extended cache a) (hierarchy.extended cache b) = first ∧
      hierarchy.extended cache a = before ++ first :: after ∧
      InterfaceAbove (hierarchy.view cache) a first ∧
      InterfaceAbove (hierarchy.view cache) b first ∧
      ∀ name ∈ before, ¬ InterfaceAbove (hierarchy.view cache) b name := by
  obtain ⟨shared, left, right⟩ := meets
  obtain ⟨first, before, after, answer, split, there, absent⟩ :=
    firstShared_split (mem_extended.2 left) (mem_extended.2 right)
  refine ⟨first, before, after, answer, split, mem_extended.1 ?_, mem_extended.1 there, ?_⟩
  · rw [split]
    exact List.mem_append_right _ List.mem_cons_self
  · exact fun name member up => absent name member (mem_extended.2 up)

theorem nearest_of_listsUpwards (upwards : hierarchy.ListsUpwards cache a)
    (meets : InterfacesMeet (hierarchy.view cache) a b) :
    Nearest (hierarchy.view cache) a b
      (firstShared (hierarchy.extended cache a) (hierarchy.extended cache b)) := by
  unfold Hierarchy.ListsUpwards at upwards
  obtain ⟨first, before, after, answer, split, left, right, absent⟩ := exists_firstShared meets
  rw [answer]
  refine ⟨left, right, fun shared up there below => ?_⟩
  have member := mem_extended.2 up
  rw [split] at member upwards
  rcases List.mem_append.1 member with earlier | later
  · exact absurd there (absent shared earlier)
  · rcases List.mem_cons.1 later with same | behind
    · exact same
    · have above := (List.pairwise_cons.1 (List.pairwise_append.1 upwards).2.1).1
      exact absurd below (above shared behind)

theorem listsUpwards_of_nearest (kind : (hierarchy.view cache a).isInterface = true)
    (kinds : ExtendsInterfaces (hierarchy.view cache) a) (nearest : hierarchy.NearestFrom cache a) :
    hierarchy.ListsUpwards cache a := by
  have distinct := nodup_extended hierarchy cache a
  refine List.pairwise_iff_forall_sublist.2 fun {early late} order up => ?_
  have reached : InterfaceAbove (hierarchy.view cache) a late :=
    mem_extended.1 (order.subset (List.mem_cons_of_mem _ List.mem_cons_self))
  have other : late ≠ a := by
    rintro rfl
    obtain ⟨rest, starts⟩ := extended_eq_cons hierarchy cache late
    rw [starts] at order distinct
    cases @mem_of_sublist_split _ [] _ _ _ distinct order
  have further : (hierarchy.view cache late).interfaces ≠ [] := by
    rcases Relation.ReflTransGen.cases_head up with same | ⟨next, step, -⟩
    · subst same
      have twice := List.nodup_cons.1 (distinct.sublist order)
      exact absurd List.mem_cons_self twice.1
    · exact List.ne_nil_of_mem step
  -- The question is asked for the interface that is listed too late.
  have meets : InterfacesMeet (hierarchy.view cache) a late := ⟨late, reached, .refl⟩
  obtain ⟨first, before, after, answer, split, -, right, absent⟩ := exists_firstShared meets
  have interface := kinds late reached further
  have none_below := nearest late other interface meets
  rw [commonAncestor_of_interfaces other.symm kind interface, answer] at none_below
  have same := none_below.lowest late reached .refl right
  -- The answer is that interface itself, but what it extends comes earlier and is shared too.
  subst same
  rw [split] at distinct order
  exact absent early (mem_of_sublist_split distinct order) up

section Single

variable (orderly : OrderlyExtension (hierarchy.view cache) a)
  (single : ∀ x y, InterfaceAbove (hierarchy.view cache) a x →
    InterfaceAbove (hierarchy.view cache) a y → ∀ name ∈ (hierarchy.view cache x).interfaces,
      name ∈ (hierarchy.view cache y).interfaces → x = y)
include orderly single

theorem mem_before_of_single {low high : String}
    (reached : InterfaceAbove (hierarchy.view cache) a low)
    (up : InterfaceAbove (hierarchy.view cache) low high) {before after : List String}
    (split : hierarchy.extended cache a = before ++ high :: after) : low = high ∨ low ∈ before := by
  induction up generalizing before after with
  | refl => exact .inl rfl
  | tail lower step ih =>
    next middle higher =>
    have below := reached.trans lower
    rw [extended_eq] at split
    rcases exists_extending split with start | ⟨other, earlier, extends_⟩
    · rw [List.mem_singleton.1 start] at step
      exact absurd (Relation.TransGen.tail' below step) (orderly a .refl)
    · have listed : other ∈ hierarchy.extended cache a := by
        rw [extended_eq, split]
        exact List.mem_append_left _ earlier
      -- What extends it and was listed is what leads up to it from below.
      have same := single other middle (mem_extended.1 listed) below higher extends_ step
      subst same
      obtain ⟨front, back, rfl⟩ := List.append_of_mem earlier
      rw [← extended_eq, List.append_assoc, List.cons_append] at split
      rcases ih split with equal | inside
      · rw [equal]
        exact .inr earlier
      · exact .inr (List.mem_append_left _ inside)

theorem listsUpwards_of_single : hierarchy.ListsUpwards cache a := by
  have distinct := nodup_extended hierarchy cache a
  refine List.pairwise_iff_forall_sublist.2 fun {early late} order up => ?_
  have reached : InterfaceAbove (hierarchy.view cache) a late :=
    mem_extended.1 (order.subset (List.mem_cons_of_mem _ List.mem_cons_self))
  obtain ⟨before, after, split⟩ := List.append_of_mem (mem_extended.2 reached)
  rw [split] at order
  have earlier := mem_of_sublist_split (split ▸ distinct) order
  obtain ⟨front, back, rfl⟩ := List.append_of_mem earlier
  rw [List.append_assoc, List.cons_append] at split
  rw [split] at distinct
  rcases mem_before_of_single orderly single reached up split with rfl | inside
  · have once := (List.nodup_cons.1 (List.nodup_append.1 distinct).2.1).1
    exact once (List.mem_append_right _ List.mem_cons_self)
  · have apart := (List.nodup_append.1 distinct).2.2 late inside late
    exact apart (List.mem_cons_of_mem _ (List.mem_append_right _ List.mem_cons_self)) rfl

end Single

/-- In a circle of extensions a type would be listed among those that one of its own leads up to. -/
theorem orderlyExtension_of_walks (apart : ∀ name ∈ hierarchy.extended cache a,
    ∀ next ∈ (hierarchy.view cache name).interfaces, name ∉ hierarchy.extended cache next) :
    OrderlyExtension (hierarchy.view cache) a := by
  intro name up circle
  obtain ⟨next, step, back⟩ := Relation.TransGen.head'_iff.1 circle
  exact apart name (mem_extended.2 up) next step (mem_extended.2 back)

end Answers

/-- The common ancestor of two different interfaces is one that both extend, if there is any, and
else the top class. From one interface it is a nearest one to every other that it meets, if the walk
up from it lists each interface before those that it extends; and only then, if what it extends are
interfaces. -/
theorem Hierarchy.commonAncestor_interfaces {hierarchy : Hierarchy} {cache : MetadataCache}
    {a : String} (kind : (hierarchy.view cache a).isInterface = true) :
    (∀ b, b ≠ a → (hierarchy.view cache b).isInterface = true →
      let answer := (hierarchy.commonAncestor a b cache).1
      (InterfacesMeet (hierarchy.view cache) a b → InterfaceAbove (hierarchy.view cache) a answer ∧
        InterfaceAbove (hierarchy.view cache) b answer) ∧
      (¬ InterfacesMeet (hierarchy.view cache) a b → answer = objectName)) ∧
    (hierarchy.ListsUpwards cache a → hierarchy.NearestFrom cache a) ∧
    (ExtendsInterfaces (hierarchy.view cache) a → hierarchy.NearestFrom cache a →
      hierarchy.ListsUpwards cache a) := by
  refine ⟨fun b other interface => ?_, fun upwards b other interface meets => ?_,
    listsUpwards_of_nearest kind⟩
  · rw [commonAncestor_of_interfaces other.symm kind interface]
    refine ⟨fun meets => ?_, fun apart => ?_⟩
    · obtain ⟨first, _, _, answer, -, left, right, -⟩ := exists_firstShared meets
      rw [answer]
      exact ⟨left, right⟩
    · refine firstShared_of_disjoint fun name left right => apart ⟨name, ?_, ?_⟩
      · exact mem_extended.1 left
      · exact mem_extended.1 right
  · rw [commonAncestor_of_interfaces other.symm kind interface]
    exact nearest_of_listsUpwards upwards meets

def bareHierarchy : Hierarchy := ⟨.empty, none⟩

/-- An interface that extends two others, of which one extends a third; it is extended elsewhere. -/
def treeCache : MetadataCache :=
  ⟨[⟨"app/Leaf", some objectName, ["app/Middle", "app/Side"], true⟩,
    ⟨"app/Twig", some objectName, ["app/Middle"], true⟩,
    ⟨"app/Middle", some objectName, ["app/Root"], true⟩, ⟨"app/Root", some objectName, [], true⟩]⟩

theorem tree_nearest :
    (bareHierarchy.view treeCache "app/Leaf").isInterface = true ∧
      bareHierarchy.NearestFrom treeCache "app/Leaf" ∧
      (bareHierarchy.commonAncestor "app/Leaf" "app/Twig" treeCache).1 = "app/Middle" := by
  have walk : bareHierarchy.extended treeCache "app/Leaf" =
      ["app/Leaf", "app/Middle", "app/Root", "app/Side"] := by decide +kernel
  have listed (name : String) (up : InterfaceAbove (bareHierarchy.view treeCache) "app/Leaf" name) :
      name ∈ ["app/Leaf", "app/Middle", "app/Root", "app/Side"] := by
    rw [← walk]
    exact mem_extended.2 up
  have kind : (bareHierarchy.view treeCache "app/Leaf").isInterface = true := by decide
  have single : ∀ x ∈ ["app/Leaf", "app/Middle", "app/Root", "app/Side"],
      ∀ y ∈ ["app/Leaf", "app/Middle", "app/Root", "app/Side"],
      ∀ name ∈ (bareHierarchy.view treeCache x).interfaces,
        name ∈ (bareHierarchy.view treeCache y).interfaces → x = y := by decide +kernel
  have upwards : bareHierarchy.ListsUpwards treeCache "app/Leaf" :=
    listsUpwards_of_single (orderlyExtension_of_walks (by decide +kernel))
      fun x y left right => single x (listed x left) y (listed y right)
  obtain ⟨-, nearest, -⟩ := Hierarchy.commonAncestor_interfaces kind
  exact ⟨kind, nearest upwards, by decide +kernel⟩

/-- One interface extends two others, which extend a fourth; another one extends the second side. -/
def diamondCache : MetadataCache :=
  ⟨[⟨"app/Both", some objectName, ["app/Left", "app/Right"], true⟩,
    ⟨"app/Other", some objectName, ["app/Right"], true⟩,
    ⟨"app/Left", some objectName, ["app/Top"], true⟩,
    ⟨"app/Right", some objectName, ["app/Top"], true⟩, ⟨"app/Top", some objectName, [], true⟩]⟩

/-- The two interfaces share one side of the diamond and what is above it, and the answer is the
latter: the walk up from the left has come to it through the other side. -/
theorem diamond_answer_not_nearest :
    (bareHierarchy.view diamondCache "app/Both").isInterface = true ∧
      (bareHierarchy.view diamondCache "app/Other").isInterface = true ∧
      OrderlyExtension (bareHierarchy.view diamondCache) "app/Both" ∧
      OrderlyExtension (bareHierarchy.view diamondCache) "app/Other" ∧
      (bareHierarchy.commonAncestor "app/Both" "app/Other" diamondCache).1 = "app/Top" ∧
      Nearest (bareHierarchy.view diamondCache) "app/Both" "app/Other" "app/Right" ∧
      ¬ Nearest (bareHierarchy.view diamondCache) "app/Both" "app/Other" "app/Top" := by
  have both : bareHierarchy.extended diamondCache "app/Both" =
      ["app/Both", "app/Left", "app/Top", "app/Right"] := by decide +kernel
  have other : bareHierarchy.extended diamondCache "app/Other" =
      ["app/Other", "app/Right", "app/Top"] := by decide +kernel
  have right : Nearest (bareHierarchy.view diamondCache) "app/Both" "app/Other" "app/Right" := by
    refine ⟨mem_extended.1 (by rw [both]; decide), mem_extended.1 (by rw [other]; decide), ?_⟩
    intro shared left there below
    have all : ∀ name ∈ ["app/Both", "app/Left", "app/Top", "app/Right"],
        name ∈ ["app/Other", "app/Right", "app/Top"] →
          "app/Right" ∈ bareHierarchy.extended diamondCache name → name = "app/Right" := by
      decide +kernel
    refine all shared ?_ ?_ (mem_extended.2 below)
    · rw [← both]
      exact mem_extended.2 left
    · rw [← other]
      exact mem_extended.2 there
  refine ⟨by decide, by decide, orderlyExtension_of_walks (by decide +kernel),
    orderlyExtension_of_walks (by decide +kernel), by decide +kernel, right, fun nearest => ?_⟩
  have same := nearest.lowest "app/Right" right.left right.right (.single (by decide))
  exact absurd same (by decide)

end ClassRenaming
