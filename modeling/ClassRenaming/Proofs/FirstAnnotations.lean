import ClassRenaming.Relocation
import Mathlib.Data.List.Basic
import Mathlib.Data.List.Nodup

/-!
Collisions of annotations, told without a memory of what was seen. The annotations of an owner are
put in one order, those in visible attributes before those in invisible ones, each with the spot where
it is declared; one is kept if the first in that order with its key is the one at its own spot.
Settling the annotations of a class leaves in every attribute of every owner just the kept ones.
-/

namespace ClassRenaming

/-- Where an annotation is declared: the position of its attribute in the owner, its parameter (zero where
there are none), and its place in the list there. -/
structure Spot where
  position : Nat
  parameter : Nat
  place : Nat
  deriving DecidableEq, Repr

abbrev Declared := List (Spot × AnnotationKey)

namespace Declared

def isFirst (all : Declared) (spot : Spot) (key : AnnotationKey) : Bool :=
  all.find? (·.2 == key) == some (spot, key)

def keys (all : Declared) : List AnnotationKey := all.map (·.2)

variable {α : Type}

def ofEntries (key : α → AnnotationKey) (spot : Spot) (entries : List α) : Declared :=
  (entries.zipIdx spot.place).map fun (entry, place) => ({ spot with place }, key entry)

def keptOf (all : Declared) (key : α → AnnotationKey) (spot : Spot) (entries : List α) : List α :=
  ((entries.zipIdx spot.place).filter fun (entry, place) =>
    all.isFirst { spot with place } (key entry)).map (·.1)

end Declared

/-- How attributes of a kind declare annotations, and what each becomes when only kept ones are left
in it. -/
structure Declaring (α : Type) where
  visibility? : α → Option Visibility
  declares : Nat → α → Declared
  keep : Declared → Nat → α → Option α

namespace Declaring

variable {α : Type} (kind : Declaring α)

/-- The attributes that hold annotations, with their positions, the visible ones first. -/
def ordered (attributes : List α) : List (α × Nat) :=
  (attributes.zipIdx.filter fun item => kind.visibility? item.1 = some .visible) ++
    attributes.zipIdx.filter fun item => kind.visibility? item.1 = some .invisible

def declared (attributes : List α) : Declared :=
  (kind.ordered attributes).flatMap fun (item, index) => kind.declares index item

def keepFirst (attributes : List α) : List α :=
  attributes.zipIdx.filterMap fun (item, index) => kind.keep (kind.declared attributes) index item

end Declaring

/-- Annotations of a body are those on types; an attribute without any left goes. -/
def CodeAttribute.declaring : Declaring CodeAttribute where
  visibility?
    | typeAnnotations visibility _ => some visibility
    | _ => none
  declares
    | index, typeAnnotations _ entries => Declared.ofEntries TypeAnnotation.key ⟨index, 0, 0⟩ entries
    | _, _ => []
  keep
    | all, index, typeAnnotations visibility entries =>
      let kept := all.keptOf TypeAnnotation.key ⟨index, 0, 0⟩ entries
      if kept.isEmpty then none else some (typeAnnotations visibility kept)
    | _, _, other => some other

namespace Attribute

def declaredKey (entry : Annotation) : AnnotationKey := .declared entry.descriptor

def parameterKey (index : Nat) (entry : Annotation) : AnnotationKey :=
  .parameter index entry.descriptor

/-- An attribute goes if it had annotations and has none left; lists of parameters all stay. -/
def declaring : Declaring Attribute where
  visibility? := visibility?
  declares
    | index, annotations _ entries => Declared.ofEntries declaredKey ⟨index, 0, 0⟩ entries
    | index, parameterAnnotations _ parameters =>
      parameters.zipIdx.flatMap fun (entries, parameter) =>
        Declared.ofEntries (parameterKey parameter) ⟨index, parameter, 0⟩ entries
    | index, typeAnnotations _ entries =>
      Declared.ofEntries TypeAnnotation.key ⟨index, 0, 0⟩ entries
    | _, _ => []
  keep
    | all, index, annotations visibility entries =>
      let kept := all.keptOf declaredKey ⟨index, 0, 0⟩ entries
      if kept.isEmpty && !entries.isEmpty then none else some (annotations visibility kept)
    | all, index, parameterAnnotations visibility parameters =>
      some (parameterAnnotations visibility (parameters.zipIdx.map fun (entries, parameter) =>
        all.keptOf (parameterKey parameter) ⟨index, parameter, 0⟩ entries))
    | all, index, typeAnnotations visibility entries =>
      let kept := all.keptOf TypeAnnotation.key ⟨index, 0, 0⟩ entries
      if kept.isEmpty && !entries.isEmpty then none else some (typeAnnotations visibility kept)
    | _, _, other => some other

mutual

def resolveInside : Attribute → Attribute
  | exceptions names => exceptions names.eraseDups
  | record components => record (resolveComponents components)
  | code body => code { body with attributes := CodeAttribute.declaring.keepFirst body.attributes }
  | other => other

def resolveComponents : List (RecordComponent Attribute) → List (RecordComponent Attribute)
  | [] => []
  | ⟨name, descriptor, attributes⟩ :: rest =>
    ⟨name, descriptor, declaring.keepFirst (resolveEach attributes)⟩ :: resolveComponents rest

def resolveEach : List Attribute → List Attribute
  | [] => []
  | first :: rest => resolveInside first :: resolveEach rest

end

def resolve (attributes : List Attribute) : List Attribute :=
  declaring.keepFirst (resolveEach attributes)

end Attribute

def Member.resolve (member : Member) : Member :=
  { member with attributes := Attribute.resolve member.attributes }

def ClassModel.resolve (model : ClassModel) : ClassModel :=
  { model with
    interfaces := model.interfaces.eraseDups
    attributes := Attribute.resolve model.attributes
    fields := model.fields.map Member.resolve
    methods := model.methods.map Member.resolve }

/-! The first with its key. -/

namespace Declared

variable {all front back : Declared} {spot : Spot} {key : AnnotationKey}

theorem isFirst_iff (split : all = front ++ (spot, key) :: back)
    (distinct : (all.map (·.1)).Nodup) : all.isFirst spot key = true ↔ key ∉ front.keys := by
  subst split
  have apart : spot ∉ front.map (·.1) := by
    rw [List.map_append, List.map_cons] at distinct
    exact fun member => (List.nodup_append.1 distinct).2.2 spot member spot List.mem_cons_self rfl
  rw [isFirst, beq_iff_eq, List.find?_append]
  constructor
  · intro found member
    obtain ⟨⟨other, same⟩, listed, equal⟩ := List.mem_map.1 member
    have seen : (front.find? (·.2 == key)).isSome := List.find?_isSome.2 ⟨_, listed, by simpa using equal⟩
    obtain ⟨first, here⟩ := Option.isSome_iff_exists.1 seen
    rw [here, Option.some_or] at found
    cases found
    exact apart (List.mem_map.2 ⟨_, List.mem_of_find?_eq_some here, rfl⟩)
  · intro absent
    have unseen : front.find? (·.2 == key) = none := by
      refine List.find?_eq_none.2 fun item member same => absent ?_
      exact List.mem_map.2 ⟨item, member, by simpa using same⟩
    rw [unseen, Option.none_or, List.find?_cons_of_pos (by simp)]

def Seen (front : Declared) (seen : Keys) : Prop := ∀ key, key ∈ seen ↔ key ∈ front.keys

theorem keys_append (front back : Declared) : keys (front ++ back) = front.keys ++ back.keys :=
  List.map_append

theorem Seen.snoc {seen : Keys} (before : front.Seen seen) (spot : Spot) (key : AnnotationKey) :
    Seen (front ++ [(spot, key)]) (key :: seen) := by
  intro other
  rw [keys_append, List.mem_append, List.mem_cons, before other, or_comm]
  simp [keys]

theorem Seen.again {seen : Keys} (before : front.Seen seen) (spot : Spot) (known : key ∈ seen) :
    Seen (front ++ [(spot, key)]) seen := by
  intro other
  rw [keys_append, List.mem_append, before other]
  refine ⟨.inl, fun either => either.elim id fun here => ?_⟩
  obtain rfl : other = key := by simpa [keys] using here
  exact (before other).1 known

variable {α : Type}

@[simp] theorem ofEntries_nil (key : α → AnnotationKey) (spot : Spot) : ofEntries key spot [] = [] :=
  rfl

theorem ofEntries_cons (key : α → AnnotationKey) (spot : Spot) (first : α) (rest : List α) :
    ofEntries key spot (first :: rest) =
      [(spot, key first)] ++ ofEntries key { spot with place := spot.place + 1 } rest := rfl

theorem position_of_mem_ofEntries {key : α → AnnotationKey} {start : Spot} {entries : List α}
    {item : Spot × AnnotationKey} (member : item ∈ ofEntries key start entries) :
    item.1.position = start.position ∧ item.1.parameter = start.parameter := by
  obtain ⟨_, _, rfl⟩ := List.mem_map.1 member
  exact ⟨rfl, rfl⟩

theorem nodup_ofEntries (key : α → AnnotationKey) (start : Spot) (entries : List α) :
    ((ofEntries key start entries).map (·.1)).Nodup := by
  have places : (entries.zipIdx start.place).map (·.2) = List.range' start.place entries.length :=
    List.zipIdx_map_snd ..
  refine List.Nodup.of_map (·.place) ?_
  rw [List.map_map, ofEntries, List.map_map]
  exact places ▸ List.nodup_range' ..

theorem keptOf_cons (all : Declared) (key : α → AnnotationKey) (spot : Spot) (first : α)
    (rest : List α) :
    all.keptOf key spot (first :: rest) =
      if all.isFirst spot (key first) then
        first :: all.keptOf key { spot with place := spot.place + 1 } rest
      else all.keptOf key { spot with place := spot.place + 1 } rest := by
  by_cases here : all.isFirst spot (key first) = true <;> simp [keptOf, List.zipIdx_cons, here]

theorem keepNew_eq (key : α → AnnotationKey) {all back : Declared}
    (distinct : (all.map (·.1)).Nodup) (entries : List α) (spot : Spot) (front : Declared)
    (seen : Keys) (split : all = front ++ ofEntries key spot entries ++ back)
    (before : front.Seen seen) :
    (keepNew key entries seen).1 = all.keptOf key spot entries ∧
      Seen (front ++ ofEntries key spot entries) (keepNew key entries seen).2 := by
  induction entries generalizing spot front seen with
  | nil => exact ⟨rfl, by simpa [keepNew] using before⟩
  | cons first rest ih =>
    rw [ofEntries_cons, ← List.append_assoc] at split ⊢
    have first? : all.isFirst spot (key first) = true ↔ key first ∉ seen := by
      rw [isFirst_iff (by simpa using split) distinct, before]
    rw [keepNew, keptOf_cons]
    by_cases known : key first ∈ seen
    · rw [if_pos known, if_neg fun here => first?.1 here known]
      exact ih _ _ _ split (before.again spot known)
    · rw [if_neg known, if_pos (first?.2 known)]
      have later := ih _ _ _ split (before.snoc spot (key first))
      exact ⟨congrArg _ later.1, later.2⟩

def ofParameters (key : Nat → α → AnnotationKey) (position start : Nat) (parameters : List (List α)) :
    Declared :=
  (parameters.zipIdx start).flatMap fun (entries, parameter) =>
    ofEntries (key parameter) ⟨position, parameter, 0⟩ entries

theorem position_of_mem_ofParameters {key : Nat → α → AnnotationKey} {position start : Nat}
    {parameters : List (List α)} {item : Spot × AnnotationKey}
    (member : item ∈ ofParameters key position start parameters) : item.1.position = position := by
  obtain ⟨_, _, listed⟩ := List.mem_flatMap.1 member
  exact (position_of_mem_ofEntries listed).1

theorem pairwise_zipIdx {β : Type} (items : List β) (start : Nat) :
    (items.zipIdx start).Pairwise fun first second => first.2 ≠ second.2 := by
  refine List.pairwise_map.1 ?_
  rw [List.zipIdx_map_snd]
  exact List.nodup_range' ..

theorem nodup_ofParameters (key : Nat → α → AnnotationKey) (position start : Nat)
    (parameters : List (List α)) :
    ((ofParameters key position start parameters).map (·.1)).Nodup := by
  rw [ofParameters, List.map_flatMap]
  refine List.nodup_flatMap.2 ⟨fun item _ => nodup_ofEntries _ _ _, ?_⟩
  refine (pairwise_zipIdx parameters start).imp fun {first second} different spot one other =>
    different ?_
  obtain ⟨_, listed, rfl⟩ := List.mem_map.1 one
  obtain ⟨_, also, same⟩ := List.mem_map.1 other
  exact (position_of_mem_ofEntries listed).2.symm.trans
    (same ▸ (position_of_mem_ofEntries also).2)

theorem keepNewByIndex_eq (key : Nat → α → AnnotationKey) {all back : Declared}
    (distinct : (all.map (·.1)).Nodup) (position : Nat) (parameters : List (List α)) (start : Nat)
    (front : Declared) (seen : Keys)
    (split : all = front ++ ofParameters key position start parameters ++ back)
    (before : front.Seen seen) :
    (keepNewByIndex key start parameters seen).1 =
        ((parameters.zipIdx start).map fun (entries, parameter) =>
          all.keptOf (key parameter) ⟨position, parameter, 0⟩ entries) ∧
      Seen (front ++ ofParameters key position start parameters)
        (keepNewByIndex key start parameters seen).2 := by
  induction parameters generalizing start front seen with
  | nil => exact ⟨rfl, by simpa [keepNewByIndex, ofParameters] using before⟩
  | cons entries rest ih =>
    have parts : ofParameters key position start (entries :: rest) =
        ofEntries (key start) ⟨position, start, 0⟩ entries ++
          ofParameters key position (start + 1) rest := rfl
    rw [parts, ← List.append_assoc] at split ⊢
    have here := keepNew_eq (key start) distinct entries _ front seen
      (by rw [split, List.append_assoc]) before
    have later := ih (start + 1) _ _ split here.2
    exact ⟨congrArg₂ List.cons here.1 later.1, later.2⟩

end Declared

/-! An owner: a pass over its visible attributes, and one over what is left for the invisible ones. -/

namespace Declaring

variable {α : Type} (kind : Declaring α)

def pass (step : α → Keys → Option α × Keys) (visibility : Visibility) :
    List α → Keys → List α × Keys
  | [], seen => ([], seen)
  | first :: rest, seen =>
    if kind.visibility? first = some visibility then
      let (kept, seen) := step first seen
      let (others, seen) := pass step visibility rest seen
      (kept.toList ++ others, seen)
    else
      let (others, seen) := pass step visibility rest seen
      (first :: others, seen)

structure Follows (step : α → Keys → Option α × Keys) : Prop where
  other : ∀ {all index item}, kind.visibility? item = none → kind.keep all index item = some item
  visibility : ∀ {all index item kept}, kind.keep all index item = some kept →
    kind.visibility? kept = kind.visibility? item
  spots : ∀ index item, ((kind.declares index item).map (·.1)).Nodup
  position : ∀ {index item spot key}, (spot, key) ∈ kind.declares index item → spot.position = index
  kept : ∀ {all front back : Declared} {index item seen}, (all.map (·.1)).Nodup →
    all = front ++ kind.declares index item ++ back → front.Seen seen →
    (step item seen).1 = kind.keep all index item ∧
      (front ++ kind.declares index item).Seen (step item seen).2

variable {kind} {step : α → Keys → Option α × Keys} {all front back : Declared} {seen : Keys}
  {visibility : Visibility}

def declaredIn (kind : Declaring α) (visibility : Visibility) (items : List (α × Nat)) : Declared :=
  (items.filter fun item => kind.visibility? item.1 = some visibility).flatMap
    fun (item, index) => kind.declares index item

def outcome (kind : Declaring α) (all : Declared) (visibility : Visibility) (item : α × Nat) :
    Option (α × Nat) :=
  if kind.visibility? item.1 = some visibility then
    (kind.keep all item.2 item.1).map (·, item.2)
  else some item

theorem declaredIn_cons_of_pos {item : α × Nat} (here : kind.visibility? item.1 = some visibility)
    (items : List (α × Nat)) :
    declaredIn kind visibility (item :: items) =
      kind.declares item.2 item.1 ++ declaredIn kind visibility items := by
  rw [declaredIn, List.filter_cons_of_pos (by simpa using here), List.flatMap_cons]
  rfl

theorem declaredIn_cons_of_neg {item : α × Nat} (here : kind.visibility? item.1 ≠ some visibility)
    (items : List (α × Nat)) :
    declaredIn kind visibility (item :: items) = declaredIn kind visibility items := by
  rw [declaredIn, List.filter_cons_of_neg (by simpa using here)]
  rfl

theorem declared_eq (kind : Declaring α) (attributes : List α) :
    kind.declared attributes =
      declaredIn kind .visible attributes.zipIdx ++ declaredIn kind .invisible attributes.zipIdx :=
  List.flatMap_append

theorem pass_eq (follows : kind.Follows step) (distinct : (all.map (·.1)).Nodup)
    (visibility : Visibility) (items : List (α × Nat)) (front back : Declared) (seen : Keys)
    (split : all = front ++ declaredIn kind visibility items ++ back) (before : front.Seen seen) :
    (kind.pass step visibility (items.map (·.1)) seen).1 =
        (items.filterMap (outcome kind all visibility)).map (·.1) ∧
      (front ++ declaredIn kind visibility items).Seen
        (kind.pass step visibility (items.map (·.1)) seen).2 := by
  induction items generalizing front seen with
  | nil => exact ⟨rfl, by simpa [pass, declaredIn] using before⟩
  | cons item rest ih =>
    rw [List.map_cons, pass, List.filterMap_cons, outcome]
    by_cases here : kind.visibility? item.1 = some visibility
    · rw [declaredIn_cons_of_pos here, ← List.append_assoc] at split ⊢
      have one := follows.kept distinct (by rw [split, List.append_assoc]) before
      have later := ih _ _ split one.2
      rw [if_pos here, if_pos here]
      refine ⟨?_, later.2⟩
      simp only [one.1, later.1]
      cases kind.keep all item.2 item.1 <;> rfl
    · rw [declaredIn_cons_of_neg here] at split ⊢
      have later := ih _ _ split before
      rw [if_neg here, if_neg here]
      exact ⟨congrArg _ later.1, later.2⟩

theorem declaredIn_outcome (follows : kind.Follows step) (all : Declared) {first second : Visibility}
    (apart : first ≠ second) (items : List (α × Nat)) :
    declaredIn kind second (items.filterMap (outcome kind all first)) =
      declaredIn kind second items := by
  induction items with
  | nil => rfl
  | cons item rest ih =>
    rw [List.filterMap_cons, outcome]
    by_cases here : kind.visibility? item.1 = some first
    · have other : kind.visibility? item.1 ≠ some second := by
        rw [here]; exact fun same => apart (Option.some.inj same)
      rw [if_pos here, declaredIn_cons_of_neg other]
      cases left : kind.keep all item.2 item.1 with
      | none => exact ih
      | some kept =>
        rw [← follows.visibility left] at other
        exact (declaredIn_cons_of_neg other _).trans ih
    · rw [if_neg here]
      by_cases second? : kind.visibility? item.1 = some second
      · simp only [declaredIn_cons_of_pos second?, ih]
      · simp only [declaredIn_cons_of_neg second?, ih]

theorem outcome_outcome (follows : kind.Follows step) (all : Declared) (item : α × Nat) :
    ((outcome kind all .visible item).bind (outcome kind all .invisible)).map (·.1) =
      kind.keep all item.2 item.1 := by
  cases here : kind.visibility? item.1 with
  | none => simp [outcome, here, follows.other here]
  | some visibility =>
    cases visibility with
    | visible =>
      cases left : kind.keep all item.2 item.1 with
      | none => simp [outcome, here, left]
      | some kept => simp [outcome, here, left, follows.visibility left]
    | invisible => cases left : kind.keep all item.2 item.1 <;> simp [outcome, here, left]

theorem declared_distinct (follows : kind.Follows step) (attributes : List α) :
    ((kind.declared attributes).map (·.1)).Nodup := by
  have apart : (kind.ordered attributes).Pairwise fun first second => first.2 ≠ second.2 := by
    have increasing := Declared.pairwise_zipIdx attributes 0
    refine List.pairwise_append.2 ⟨increasing.filter _, increasing.filter _, ?_⟩
    intro first one second other same
    obtain ⟨listed, visible⟩ := List.mem_filter.1 one
    obtain ⟨also, invisible⟩ := List.mem_filter.1 other
    have equal : first.1 = second.1 := by
      have := List.mem_zipIdx' listed
      have := List.mem_zipIdx' also
      simp_all
    simp_all
  rw [declared, List.map_flatMap]
  refine List.nodup_flatMap.2 ⟨fun item _ => follows.spots item.2 item.1, ?_⟩
  refine apart.imp fun {first second} different spot one other => different ?_
  obtain ⟨⟨_, key⟩, listed, rfl⟩ := List.mem_map.1 one
  obtain ⟨⟨_, key'⟩, also, same⟩ := List.mem_map.1 other
  cases same
  rw [← follows.position listed, ← follows.position also]

theorem pass_pass (follows : kind.Follows step) (attributes : List α) :
    (kind.pass step .invisible (kind.pass step .visible attributes []).1
      (kind.pass step .visible attributes []).2).1 = kind.keepFirst attributes := by
  have distinct := declared_distinct follows attributes
  have listed : attributes.zipIdx.map (·.1) = attributes := List.zipIdx_map_fst 0 attributes
  have first := pass_eq follows distinct .visible attributes.zipIdx [] _ []
    (declared_eq kind attributes) (fun key => Iff.rfl)
  rw [listed] at first
  have apart : Visibility.visible ≠ .invisible := by decide
  have split : kind.declared attributes =
      [] ++ declaredIn kind .visible attributes.zipIdx ++ declaredIn kind .invisible
        (attributes.zipIdx.filterMap (outcome kind (kind.declared attributes) .visible)) ++ [] := by
    rw [declaredIn_outcome follows _ apart, List.append_nil]
    exact declared_eq kind attributes
  have second := pass_eq follows distinct .invisible _ _ _ _ split first.2
  rw [first.1, second.1, List.filterMap_filterMap, List.map_filterMap]
  exact List.filterMap_congr fun item _ => outcome_outcome follows _ item

end Declaring

/-! Settling is two passes in every owner. -/

namespace CodeAttribute

def keepNew (item : CodeAttribute) (seen : Keys) : Option CodeAttribute × Keys :=
  match item with
  | typeAnnotations visibility entries =>
    let (kept, seen) := ClassRenaming.keepNew TypeAnnotation.key entries seen
    (if kept.isEmpty then none else some (typeAnnotations visibility kept), seen)
  | other => (some other, seen)

theorem keepVisibility_eq (visibility : Visibility) (attributes : List CodeAttribute)
    (seen : Keys) :
    keepVisibility visibility attributes seen =
      declaring.pass keepNew visibility attributes seen := by
  induction attributes generalizing seen with
  | nil => rfl
  | cons first rest ih =>
    cases first with
    | typeAnnotations found entries =>
      have visible : declaring.visibility? (typeAnnotations found entries) = some found := rfl
      rw [keepVisibility, Declaring.pass, visible]
      by_cases here : found = visibility
      · rw [if_pos here, if_pos (congrArg some here)]
        simp only [keepNew, ih]
        split <;> rfl
      · rw [if_neg here, if_neg (here ∘ Option.some.inj), ih]
    | _ =>
      rw [keepVisibility, Declaring.pass, if_neg (by simp [declaring]), ih]
      simp

theorem follows_keepNew : declaring.Follows keepNew where
  other {_ _ item} none := by cases item <;> first | rfl | cases none
  visibility {_ _ item _} left := by
    cases item <;> simp only [declaring] at left
    case typeAnnotations =>
      split at left <;> cases left
      rfl
    all_goals cases left; rfl
  spots index item := by
    cases item with
    | typeAnnotations => exact Declared.nodup_ofEntries _ _ _
    | _ => exact List.nodup_nil
  position {_ item _ _} member := by
    cases item with
    | typeAnnotations => exact (Declared.position_of_mem_ofEntries member).1
    | _ => cases member
  kept {all front _ index item seen} distinct split before := by
    cases item with
    | typeAnnotations visibility entries =>
      have kept := Declared.keepNew_eq _ distinct entries _ front seen split before
      exact ⟨by simp only [keepNew, kept.1, declaring], kept.2⟩
    | _ => exact ⟨rfl, by simpa [keepNew, declaring] using before⟩

theorem settle_eq (attributes : List CodeAttribute) :
    settle attributes = declaring.keepFirst attributes := by
  simp only [settle, keepVisibility_eq]
  exact Declaring.pass_pass follows_keepNew attributes

end CodeAttribute

namespace Attribute

theorem keepVisibility_eq (visibility : Visibility) (attributes : List Attribute) (seen : Keys) :
    keepVisibility visibility attributes seen =
      declaring.pass keepNew visibility attributes seen := by
  induction attributes generalizing seen with
  | nil => rfl
  | cons first rest ih => simp only [keepVisibility, Declaring.pass, ih]; rfl

theorem follows_keepNew : declaring.Follows keepNew where
  other {_ _ item} none := by cases item <;> first | rfl | cases none
  visibility {_ _ item _} left := by
    cases item <;> simp only [declaring] at left
    case annotations | typeAnnotations =>
      split at left <;> cases left
      rfl
    all_goals cases left; rfl
  spots index item := by
    cases item with
    | annotations | typeAnnotations => exact Declared.nodup_ofEntries _ _ _
    | parameterAnnotations => exact Declared.nodup_ofParameters _ _ _ _
    | _ => exact List.nodup_nil
  position {_ item _ _} member := by
    cases item with
    | annotations | typeAnnotations => exact (Declared.position_of_mem_ofEntries member).1
    | parameterAnnotations => exact Declared.position_of_mem_ofParameters member
    | _ => cases member
  kept {all front _ index item seen} distinct split before := by
    cases item with
    | annotations visibility entries =>
      have kept := Declared.keepNew_eq declaredKey distinct entries _ front seen split before
      exact ⟨by simp only [keepNew, declaring, ← kept.1]; rfl, kept.2⟩
    | typeAnnotations visibility entries =>
      have kept := Declared.keepNew_eq _ distinct entries _ front seen split before
      refine ⟨?_, ?_⟩
      · simp only [keepNew, declaring, ← kept.1]
        split <;> rfl
      · simp only [keepNew]
        split <;> exact kept.2
    | parameterAnnotations visibility parameters =>
      have kept := Declared.keepNewByIndex_eq parameterKey distinct index parameters 0 front seen
        split before
      exact ⟨by simp only [keepNew, declaring, ← kept.1]; rfl, kept.2⟩
    | _ => exact ⟨rfl, by simpa [keepNew, declaring] using before⟩

theorem settleAnnotations_eq (attributes : List Attribute) :
    settleAnnotations attributes = declaring.keepFirst attributes := by
  simp only [settleAnnotations, keepVisibility_eq]
  exact Declaring.pass_pass follows_keepNew attributes

mutual

theorem settleInside_eq (item : Attribute) : item.settleInside = item.resolveInside := by
  cases item with
  | record components => rw [settleInside, resolveInside, settleComponents_eq components]
  | code body => rw [settleInside, resolveInside, Code.settle, CodeAttribute.settle_eq]
  | _ => simp only [settleInside, resolveInside]

theorem settleComponents_eq : ∀ components : List (RecordComponent Attribute),
    settleComponents components = resolveComponents components
  | [] => by rw [settleComponents, resolveComponents]
  | ⟨name, descriptor, attributes⟩ :: rest => by
    rw [settleComponents, resolveComponents, settleAnnotations_eq, settleEach_eq,
      settleComponents_eq]

theorem settleEach_eq : ∀ attributes : List Attribute, settleEach attributes = resolveEach attributes
  | [] => by rw [settleEach, resolveEach]
  | first :: rest => by rw [settleEach, resolveEach, settleInside_eq, settleEach_eq]

end

theorem settle_eq (attributes : List Attribute) : settle attributes = resolve attributes := by
  rw [settle, resolve, settleAnnotations_eq, settleEach_eq]

end Attribute

theorem Member.settle_eq (member : Member) : member.settle = member.resolve := by
  rw [Member.settle, Member.resolve, Attribute.settle_eq]

theorem ClassModel.settle_eq (model : ClassModel) : model.settle = model.resolve := by
  rw [ClassModel.settle, ClassModel.resolve, Attribute.settle_eq, funext Member.settle_eq]

/-- Relocating a class maps all it names, and then keeps the first annotation with every key in each
owner, the visible ones coming before the invisible ones. -/
theorem ClassModel.relocate_keepFirst (table : Renaming) (model : ClassModel) :
    model.relocate table = (model.rename table).resolve := by
  rw [ClassModel.relocate, ClassModel.settle_eq]

end ClassRenaming
