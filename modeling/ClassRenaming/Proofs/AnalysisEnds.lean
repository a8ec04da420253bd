import ClassRenaming.Proofs.SwappedLocals

/-!
Whether analyses end is a matter of the hierarchy. In an orderly one they all do, unless there are
two classes which are superclasses of each other; a source of classes may well have such classes.
Interfaces that extend each other do no harm.
-/

namespace ClassRenaming

namespace Hierarchy

def AllEnd (hierarchy : Hierarchy) (cache : MetadataCache) : Prop :=
  ∀ owner member code, Flow.Ends (Code.analyze ⟨hierarchy, owner⟩ member code) cache

theorem allEnd_of_lowers {hierarchy : Hierarchy} {cache : MetadataCache} {height : String → Nat}
    (lowers : Lowers hierarchy (hierarchy.view cache) height) : hierarchy.AllEnd cache :=
  fun _ member code => Code.ends_analyze lowers member code cache rfl

theorem not_allEnd_of_swaps {hierarchy : Hierarchy} {cache : MetadataCache} {a b : String}
    (swaps : Swaps (hierarchy.view cache) a b) : ¬ hierarchy.AllEnd cache := by
  intro all
  have endless := Swapping.never_ends ⟨hierarchy, a⟩ swaps cache rfl
  exact endless (all a swapMethod (swapBody a b))

/-- Analyses end where merges lower a height of names; some body has an analysis without an end
where two classes are superclasses of each other; and in an orderly hierarchy there is nothing
between the two. -/
theorem allEnd_iff (hierarchy : Hierarchy) (cache : MetadataCache) :
    (∀ height, Lowers hierarchy (hierarchy.view cache) height → hierarchy.AllEnd cache) ∧
      (∀ a b, Swaps (hierarchy.view cache) a b → ¬ hierarchy.AllEnd cache) ∧
      (Orderly (hierarchy.view cache) →
        (hierarchy.AllEnd cache ↔ ∀ a b, ¬ Swaps (hierarchy.view cache) a b)) := by
  refine ⟨fun _ => allEnd_of_lowers, fun _ _ => not_allEnd_of_swaps, fun orderly => ⟨?_, ?_⟩⟩
  · intro all a b swaps
    exact not_allEnd_of_swaps swaps all
  · intro straight
    obtain ⟨height, lowers⟩ := exists_lowers orderly straight
    exact allEnd_of_lowers lowers

end Hierarchy

/-- The front of a class file: the names of a class and of its superclass, each of one letter. -/
def headerBytes (name superclass : UInt8) : Bytes :=
  [0xCA, 0xFE, 0xBA, 0xBE, 0, 0, 0, 52, 0, 5, 1, 0, 1, name, 7, 0, 1, 1, 0, 1, superclass, 7, 0, 3,
    0, 0x21, 0, 2, 0, 4, 0, 0, 0, 0, 0, 0, 0, 0]

/-- Two class files, each of which names the other as its superclass. -/
def circularSource : ClassSource :=
  .ofClasses [("A", headerBytes 0x41 0x42), ("B", headerBytes 0x42 0x41)]

theorem circularSource_swaps : Swaps (Hierarchy.view ⟨circularSource, none⟩ .empty) "A" "B" where
  distinct := by decide
  plain := ⟨by rfl, by rfl⟩
  classes := ⟨by rfl, by rfl⟩
  up := .single (by rfl)
  back := .single (by rfl)

theorem circularSource_never_ends :
    ¬ Flow.Ends ((swapBody "A" "B").analyze ⟨⟨circularSource, none⟩, "A"⟩ swapMethod) .empty :=
  Swapping.never_ends ⟨⟨circularSource, none⟩, "A"⟩ circularSource_swaps .empty rfl

/-! A class below one that is not there, and two interfaces that extend each other. -/

/-- The front of a class file: the names of an interface and of one that it extends. -/
def interfaceBytes (name extended : UInt8) : Bytes :=
  [0xCA, 0xFE, 0xBA, 0xBE, 0, 0, 0, 52, 0, 5, 1, 0, 1, name, 7, 0, 1, 1, 0, 1, extended, 7, 0, 3,
    0x06, 0, 0, 2, 0, 0, 0, 1, 0, 4, 0, 0, 0, 0, 0, 0, 0, 0]

def knottedSource : ClassSource :=
  .ofClasses [("A", headerBytes 0x41 0x42), ("I", interfaceBytes 0x49 0x4A),
    ("J", interfaceBytes 0x4A 0x49)]

def knottedTable (name : String) : TypeMetadata :=
  if name = "A" then ⟨"A", some "B", [], false⟩
  else if name = "I" then ⟨"I", none, ["J"], true⟩
  else if name = "J" then ⟨"J", none, ["I"], true⟩
  else .fallback name

theorem view_knottedSource : Hierarchy.view ⟨knottedSource, none⟩ .empty = knottedTable := by
  funext name
  by_cases a : name = "A"
  · subst a
    rfl
  by_cases i : name = "I"
  · subst i
    rfl
  by_cases j : name = "J"
  · subst j
    rfl
  have absent : knottedSource.find name = .ok none := by
    simp [knottedSource, ClassSource.ofClasses, List.lookup_cons, beq_false_of_ne a,
      beq_false_of_ne i, beq_false_of_ne j]
  rw [knottedTable, if_neg a, if_neg i, if_neg j, Hierarchy.view, MetadataCache.find?_empty,
    Option.getD_none, Hierarchy.load]
  simp [Hierarchy.candidates, Hierarchy.header?, absent]

def knottedRank (name : String) : Nat :=
  if name = "A" then 2 else if name = objectName then 0 else 1

theorem superclass_knottedTable {a b : String} (up : (knottedTable a).superclass = some b) :
    (b = "B" ∨ b = objectName) ∧ knottedRank b < knottedRank a := by
  unfold knottedTable at up
  split at up
  · next same =>
    cases up
    subst same
    decide
  · next other =>
    split at up
    · cases up
    · split at up
      · cases up
      · simp only [TypeMetadata.fallback] at up
        split at up
        · cases up
        · next lower =>
          cases up
          refine ⟨.inr rfl, ?_⟩
          rw [knottedRank, knottedRank, if_neg other, if_neg lower]
          decide

theorem interfaces_knottedTable {a b : String} (up : b ∈ (knottedTable a).interfaces) :
    b = "I" ∨ b = "J" := by
  unfold knottedTable at up
  split at up
  · cases up
  · split at up
    · exact .inr (List.mem_singleton.1 up)
    · split at up
      · exact .inl (List.mem_singleton.1 up)
      · cases up

theorem rank_of_superAbove {a b : String} (up : SuperAbove knottedTable a b) :
    a = b ∨ knottedRank b < knottedRank a := by
  induction up with
  | refl => exact .inl rfl
  | tail first step ih =>
    have higher := (superclass_knottedTable step).2
    rcases ih with rfl | between
    · exact .inr higher
    · exact .inr (Nat.lt_trans higher between)

theorem not_swaps_knottedTable (a b : String) : ¬ Swaps knottedTable a b := by
  intro swaps
  rcases rank_of_superAbove swaps.up with same | up
  · exact swaps.distinct same
  · rcases rank_of_superAbove swaps.back with same | back
    · exact swaps.distinct same.symm
    · omega

theorem kind_of_climb {a b : String} (up : Climb knottedTable a b) :
    (knottedTable a).isInterface = (knottedTable b).isInterface := by
  unfold Climb at up
  split at up
  · next interface =>
    rcases Relation.ReflTransGen.cases_tail up with same | ⟨middle, first, step⟩
    · rw [same]
    · rw [interface]
      rcases interfaces_knottedTable step with rfl | rfl
      · rfl
      · rfl
  · next other =>
    rcases Relation.ReflTransGen.cases_tail up with same | ⟨middle, first, step⟩
    · rw [same]
    · rw [Bool.not_eq_true] at other
      rw [other]
      rcases (superclass_knottedTable step).1 with rfl | rfl
      · rfl
      · rfl

theorem orderly_knottedTable : Orderly knottedTable where
  kinds a b up back := by
    induction up with
    | refl => rfl
    | tail first step ih => exact (ih (.head step back)).trans (kind_of_climb step)
  top b up := by
    have plain : (knottedTable objectName).isInterface = false := rfl
    rw [Climb, plain, if_neg Bool.false_ne_true] at up
    rcases rank_of_superAbove up with same | lower
    · exact same.symm
    · exact absurd lower (Nat.not_lt_zero _)
  plain a b up := by
    have names : b ∈ ["B", objectName, "I", "J"] := by
      rcases up with up | up
      · rcases (superclass_knottedTable up).1 with rfl | rfl
        · decide
        · decide
      · rcases interfaces_knottedTable up with rfl | rfl
        · decide
        · decide
    have all : ∀ name ∈ ["B", objectName, "I", "J"], IsPlain name := by
      unfold IsPlain
      decide
    exact all b names

theorem knottedSource_allEnd :
    Orderly (Hierarchy.view ⟨knottedSource, none⟩ .empty) ∧
      Hierarchy.AllEnd ⟨knottedSource, none⟩ .empty := by
  have ends := (Hierarchy.allEnd_iff ⟨knottedSource, none⟩ .empty).2.2
  rw [view_knottedSource] at ends ⊢
  exact ⟨orderly_knottedTable, (ends orderly_knottedTable).2 not_swaps_knottedTable⟩

end ClassRenaming
