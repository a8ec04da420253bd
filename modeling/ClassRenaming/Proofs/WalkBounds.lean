import ClassRenaming.Proofs.HierarchyView
import ClassRenaming.Proofs.Reading
import Mathlib.Tactic.Ring

/-!
The walks through a hierarchy see all there is to see. A name that is not the first one was declared
by a header or by a remembered entry, so there are only so many of them, and the steps that a walk is
given are more than the names it can meet.
-/

namespace ClassRenaming

/-! The names that a hierarchy can lead to. -/

namespace TypeMetadata

def above (entry : TypeMetadata) : List String := entry.superclass.toList ++ entry.interfaces

theorem mem_above {entry : TypeMetadata} {name : String} :
    name ∈ entry.above ↔ entry.superclass = some name ∨ name ∈ entry.interfaces := by
  simp [above]

end TypeMetadata

namespace Hierarchy

variable (hierarchy : Hierarchy) (cache : MetadataCache)

def namesAbove (header : ClassHeader) : List String :=
  (header.superclass.toList ++ header.interfaces).map hierarchy.rename

def declared : List String :=
  objectName :: (cache.entries.flatMap TypeMetadata.above ++
    hierarchy.source.contents.flatMap fun bytes =>
      (ClassHeader.parse bytes).toOption.toList.flatMap hierarchy.namesAbove)

theorem mem_contents_of_header? {name : String} {header : ClassHeader}
    (found : hierarchy.header? name = some header) :
    ∃ bytes ∈ hierarchy.source.contents, ClassHeader.parse bytes = .ok header := by
  unfold header? at found
  split at found
  · next bytes there =>
    refine ⟨bytes, hierarchy.source.mem_contents name bytes there, ?_⟩
    cases parsed : ClassHeader.parse bytes with
    | error cause =>
      rw [parsed] at found
      cases found
    | ok read =>
      rw [parsed] at found
      cases found
      rfl
  · cases found

theorem mem_declared_of_load {name above : String} (found : above ∈ (hierarchy.load name).above) :
    above ∈ hierarchy.declared cache := by
  unfold load at found
  cases looked : (hierarchy.candidates name).findSome? hierarchy.header? with
  | none =>
    rw [looked] at found
    simp only [TypeMetadata.above, TypeMetadata.fallback, List.append_nil] at found
    split at found
    · cases found
    · simp only [Option.toList_some, List.mem_singleton] at found
      rw [found]
      exact List.mem_cons_self
  | some header =>
    rw [looked] at found
    obtain ⟨candidate, -, there⟩ := List.exists_of_findSome?_eq_some looked
    obtain ⟨bytes, member, parsed⟩ := hierarchy.mem_contents_of_header? there
    have named : above ∈ hierarchy.namesAbove header := by
      simp only [TypeMetadata.above, ofHeader, List.mem_append] at found
      simp only [namesAbove, List.map_append, List.mem_append]
      rcases found with super | interface
      · refine .inl ?_
        split at super
        · cases super
        · cases up : header.superclass with
          | none =>
            rw [up] at super
            cases super
          | some name =>
            rw [up] at super
            exact super
      · exact .inr interface
    refine List.mem_cons_of_mem _ (List.mem_append_right _ ?_)
    refine List.mem_flatMap.2 ⟨bytes, member, ?_⟩
    rw [parsed]
    exact List.mem_flatMap.2 ⟨header, List.mem_singleton.2 rfl, named⟩

theorem mem_declared {a b : String} (step : DeclaredAbove (hierarchy.view cache) a b) :
    b ∈ hierarchy.declared cache := by
  have found : b ∈ (hierarchy.view cache a).above := TypeMetadata.mem_above.2 step
  unfold view at found
  cases remembered : cache.find? a with
  | none =>
    rw [remembered] at found
    exact hierarchy.mem_declared_of_load cache found
  | some entry =>
    rw [remembered] at found
    refine List.mem_cons_of_mem _ (List.mem_append_left _ ?_)
    exact List.mem_flatMap.2 ⟨entry, List.mem_of_find?_eq_some remembered, found⟩

end Hierarchy

theorem ClassHeader.length_interfaces {bytes : Bytes} {header : ClassHeader}
    (parsed : parse bytes = .ok header) : header.interfaces.length < 65536 := by
  unfold parse at parsed
  cases done : read bytes with
  | error cause =>
    rw [done] at parsed
    cases parsed
  | ok result =>
    obtain ⟨⟨found, pool⟩, rest⟩ := result
    rw [done] at parsed
    cases parsed
    unfold read at done
    obtain ⟨start, _, -, done⟩ := Reader.bind_eq_ok.1 done
    dsimp only at done
    split at done
    · cases done
    · obtain ⟨minor, _, -, done⟩ := Reader.bind_eq_ok.1 done
      obtain ⟨major, _, -, done⟩ := Reader.bind_eq_ok.1 done
      obtain ⟨pool, _, -, done⟩ := Reader.bind_eq_ok.1 done
      obtain ⟨access, _, -, done⟩ := Reader.bind_eq_ok.1 done
      obtain ⟨name, _, -, done⟩ := Reader.bind_eq_ok.1 done
      obtain ⟨superclass, _, -, done⟩ := Reader.bind_eq_ok.1 done
      obtain ⟨interfaces, _, listed, done⟩ := Reader.bind_eq_ok.1 done
      obtain ⟨same, -⟩ := Reader.pure_eq_ok.1 done
      cases same
      exact Reader.length_table_lt listed

theorem length_toList_le (name : Option String) : name.toList.length ≤ 1 := by
  cases name <;> simp

theorem MetadataCache.length_above (cache : MetadataCache) :
    (cache.entries.flatMap TypeMetadata.above).length ≤ cache.weight := by
  obtain ⟨entries⟩ := cache
  unfold weight
  induction entries with
  | nil => exact Nat.le_refl _
  | cons entry rest ih =>
    have one := length_toList_le entry.superclass
    simp only [List.flatMap_cons, List.length_append, TypeMetadata.above, List.foldr_cons] at ih ⊢
    omega

theorem MetadataCache.length_interfaces {cache : MetadataCache} {entry : TypeMetadata}
    (member : entry ∈ cache.entries) : entry.interfaces.length ≤ cache.weight := by
  obtain ⟨entries⟩ := cache
  unfold weight
  induction entries with
  | nil => cases member
  | cons first rest ih =>
    rw [List.foldr_cons]
    rcases List.mem_cons.1 member with rfl | later
    · omega
    · have deeper := ih later
      dsimp only at deeper
      omega

namespace Hierarchy

variable (hierarchy : Hierarchy) (cache : MetadataCache)

theorem length_declared : (hierarchy.declared cache).length ≤
    1 + cache.weight + hierarchy.source.contents.length * 65536 := by
  have known := cache.length_above
  have headers (contents : List Bytes) : (contents.flatMap fun bytes =>
      (ClassHeader.parse bytes).toOption.toList.flatMap hierarchy.namesAbove).length ≤
        contents.length * 65536 := by
    induction contents with
    | nil => exact Nat.le_refl _
    | cons bytes rest ih =>
      have first : ((ClassHeader.parse bytes).toOption.toList.flatMap
          hierarchy.namesAbove).length ≤ 65536 := by
        cases parsed : ClassHeader.parse bytes with
        | error cause => simp [Except.toOption]
        | ok header =>
          have few := ClassHeader.length_interfaces parsed
          have one := length_toList_le header.superclass
          simp only [Except.toOption, Option.toList_some, List.flatMap_singleton, namesAbove,
            List.length_map, List.length_append]
          omega
      simp only [List.flatMap_cons, List.length_append, List.length_cons]
      omega
  have all := headers hierarchy.source.contents
  simp only [declared, List.length_cons, List.length_append]
  omega

theorem length_interfaces_view (name : String) :
    (hierarchy.view cache name).interfaces.length ≤ cache.weight + 65535 := by
  unfold view
  cases remembered : cache.find? name with
  | some entry =>
    have few := MetadataCache.length_interfaces (List.mem_of_find?_eq_some remembered)
    simp only [Option.getD_some]
    omega
  | none =>
    rw [Option.getD_none]
    unfold load
    cases looked : (hierarchy.candidates name).findSome? hierarchy.header? with
    | none => simp [TypeMetadata.fallback]
    | some header =>
      obtain ⟨candidate, -, there⟩ := List.exists_of_findSome?_eq_some looked
      obtain ⟨bytes, -, parsed⟩ := hierarchy.mem_contents_of_header? there
      have few := ClassHeader.length_interfaces parsed
      simp only [ofHeader, List.length_map]
      omega

end Hierarchy

/-! A walk ends with a closed set of names. -/

section Closed

variable (table : String → TypeMetadata) {names : List String}

theorem closed_superclassesIn (up : ∀ a b, (table a).superclass = some b → b ∈ names)
    {steps : Nat} {seen : List String} {start : Option String} (distinct : seen.Nodup)
    (inside : seen ⊆ names) (begin : ∀ name, start = some name → name ∈ names)
    (enough : names.length < steps + seen.length)
    (ahead : ∀ a ∈ seen, ∀ b, (table a).superclass = some b → b ∈ seen ∨ start = some b) :
    ∀ a ∈ seen ++ superclassesIn table steps seen start, ∀ b,
      (table a).superclass = some b → b ∈ seen ++ superclassesIn table steps seen start := by
  induction steps generalizing seen start with
  | zero =>
    have few := distinct.length_le_of_subset inside
    omega
  | succ steps ih =>
    cases start with
    | none =>
      rw [superclassesIn_none, List.append_nil]
      intro a member b super
      exact (ahead a member b super).resolve_right (by simp)
    | some name =>
      rw [superclassesIn_succ]
      by_cases old : name ∈ seen
      · rw [if_pos old, List.append_nil]
        intro a member b super
        rcases ahead a member b super with known | next
        · exact known
        · cases next
          exact old
      · rw [if_neg old]
        have here := begin name rfl
        have closed := @ih (name :: seen) (table name).superclass
          (List.nodup_cons.2 ⟨old, distinct⟩) (List.cons_subset.2 ⟨here, inside⟩) (up name)
          (by rw [List.length_cons]; omega) fun a member b super => by
            rcases List.mem_cons.1 member with rfl | earlier
            · exact .inr super
            · rcases ahead a earlier b super with known | next
              · exact .inl (List.mem_cons_of_mem _ known)
              · cases next
                exact .inl List.mem_cons_self
        intro a member b super
        have moved := closed a (List.perm_middle.mem_iff.1 member) b super
        exact List.perm_middle.mem_iff.2 moved

theorem closed_interfacesIn (up : ∀ a, ∀ b ∈ (table a).interfaces, b ∈ names) {degree : Nat}
    (few : ∀ a, (table a).interfaces.length ≤ degree) {steps unseen : Nat}
    {seen stack : List String} (distinct : seen.Nodup) (inside : seen ⊆ names)
    (begin : stack ⊆ names) (rest : names.length ≤ unseen + seen.length)
    (enough : stack.length + unseen * (degree + 1) < steps)
    (ahead : ∀ a ∈ seen, ∀ b ∈ (table a).interfaces, b ∈ seen ∨ b ∈ stack) :
    (∀ a ∈ stack, a ∈ seen ++ interfacesIn table steps seen stack) ∧
      ∀ a ∈ seen ++ interfacesIn table steps seen stack, ∀ b ∈ (table a).interfaces,
        b ∈ seen ++ interfacesIn table steps seen stack := by
  induction steps generalizing seen stack unseen with
  | zero => omega
  | succ steps ih =>
    cases stack with
    | nil =>
      rw [interfacesIn_nil, List.append_nil]
      constructor
      · intro a member
        cases member
      intro a member b listed
      exact (ahead a member b listed).resolve_right List.not_mem_nil
    | cons name stack =>
      obtain ⟨here, begin⟩ := List.cons_subset.1 begin
      rw [List.length_cons] at enough
      rw [interfacesIn_succ]
      by_cases old : name ∈ seen
      · rw [if_pos old]
        obtain ⟨waiting, closed⟩ := @ih unseen seen stack distinct inside begin rest (by omega)
          fun a member b listed => by
            rcases ahead a member b listed with known | next
            · exact .inl known
            · rcases List.mem_cons.1 next with rfl | later
              · exact .inl old
              · exact .inr later
        refine ⟨fun a member => ?_, closed⟩
        rcases List.mem_cons.1 member with rfl | later
        · exact List.mem_append_left _ old
        · exact waiting a later
      · rw [if_neg old]
        have larger := (List.nodup_cons.2 ⟨old, distinct⟩).length_le_of_subset
          (List.cons_subset.2 ⟨here, inside⟩)
        rw [List.length_cons] at larger
        obtain ⟨left, rfl⟩ : ∃ left, unseen = left + 1 := ⟨unseen - 1, by omega⟩
        have degrees := few name
        obtain ⟨waiting, closed⟩ := @ih left (name :: seen) ((table name).interfaces ++ stack)
          (List.nodup_cons.2 ⟨old, distinct⟩) (List.cons_subset.2 ⟨here, inside⟩)
          (List.append_subset.2 ⟨up name, begin⟩) (by rw [List.length_cons]; omega)
          (by rw [List.length_append]; rw [Nat.add_mul] at enough; omega)
          fun a member b listed => by
            rcases List.mem_cons.1 member with rfl | earlier
            · exact .inr (List.mem_append_left _ listed)
            · rcases ahead a earlier b listed with known | next
              · exact .inl (List.mem_cons_of_mem _ known)
              · rcases List.mem_cons.1 next with rfl | later
                · exact .inl List.mem_cons_self
                · exact .inr (List.mem_append_right _ later)
        refine ⟨fun a member => ?_, fun a member b listed => ?_⟩
        · rcases List.mem_cons.1 member with rfl | later
          · exact List.mem_append_right _ List.mem_cons_self
          · have found := waiting a (List.mem_append_right _ later)
            exact List.perm_middle.mem_iff.2 found
        · have moved := closed a (List.perm_middle.mem_iff.1 member) b listed
          exact List.perm_middle.mem_iff.2 moved

end Closed

/-! The steps that a hierarchy gives its walks are enough. -/

section Complete

variable {hierarchy : Hierarchy} {cache : MetadataCache} {table : String → TypeMetadata}

theorem declared_lt_steps (hierarchy : Hierarchy) (cache : MetadataCache) :
    (hierarchy.declared cache).length + 1 < hierarchy.steps cache ∧
      1 + ((hierarchy.declared cache).length + 1) * (cache.weight + 65535 + 1) <
        hierarchy.steps cache := by
  have size := hierarchy.length_declared cache
  obtain ⟨n, succ⟩ : ∃ n, (hierarchy.source.contents.length + 1) * Hierarchy.namesPerHeader +
      cache.weight + 2 = n + 1 := ⟨_, rfl⟩
  have first : (hierarchy.declared cache).length + 1 ≤ n := by
    unfold Hierarchy.namesPerHeader at succ
    omega
  have second : cache.weight + 65535 + 1 ≤ n := by
    unfold Hierarchy.namesPerHeader at succ
    omega
  have product := Nat.mul_le_mul first second
  have square : hierarchy.steps cache = n * n + 2 * n + 1 := by
    rw [Hierarchy.steps, succ]
    ring
  omega

theorem mem_superclassesIn (same : hierarchy.view cache = table) {a b : String}
    (above : SuperAbove table a b) :
    b ∈ superclassesIn table (hierarchy.steps cache) [] (some a) := by
  subst same
  obtain ⟨enough, -⟩ := declared_lt_steps hierarchy cache
  have bound : (a :: hierarchy.declared cache).length <
      hierarchy.steps cache + ([] : List String).length := by
    rw [List.length_nil, Nat.add_zero, List.length_cons]
    exact enough
  have begin (name : String) (same : some a = some name) :
      name ∈ a :: hierarchy.declared cache := by
    cases same
    exact List.mem_cons_self
  have closed := closed_superclassesIn (hierarchy.view cache)
    (fun x y super => List.mem_cons_of_mem a (hierarchy.mem_declared cache (.inl super)))
    List.nodup_nil (List.nil_subset _) begin bound (fun _ member => by cases member)
  rw [List.nil_append] at closed
  induction above with
  | refl =>
    obtain ⟨steps, eq⟩ := Nat.exists_eq_add_of_lt enough
    rw [eq, superclassesIn_succ, if_neg List.not_mem_nil]
    exact List.mem_cons_self
  | tail _ step ih => exact closed _ ih _ step

theorem mem_interfacesIn (same : hierarchy.view cache = table) {a b : String}
    (above : InterfaceAbove table a b) :
    b ∈ interfacesIn table (hierarchy.steps cache) [] [a] := by
  subst same
  obtain ⟨-, enough⟩ := declared_lt_steps hierarchy cache
  have bound : [a].length + (a :: hierarchy.declared cache).length * (cache.weight + 65535 + 1) <
      hierarchy.steps cache := by
    rw [List.length_singleton, List.length_cons]
    exact enough
  obtain ⟨begins, closed⟩ := closed_interfacesIn (hierarchy.view cache)
    (fun x y listed => List.mem_cons_of_mem a (hierarchy.mem_declared cache (.inr listed)))
    (hierarchy.length_interfaces_view cache) List.nodup_nil (List.nil_subset _)
    (List.cons_subset.2 ⟨List.mem_cons_self, List.nil_subset _⟩) (by rw [List.length_nil, Nat.add_zero]) bound
    (fun _ member => by cases member)
  rw [List.nil_append] at begins closed
  induction above with
  | refl => exact begins a List.mem_cons_self
  | tail _ step ih => exact closed _ ih _ step

end Complete

end ClassRenaming
