import ClassRenaming.Sites.Collisions
import ClassRenaming.Sites.Listing
import Mathlib.Data.List.Forall2

/-!
What settling collisions leaves of a class: some annotations and some repeated names go, an
attribute may go with the annotations in it, and nothing else changes.
-/

namespace ClassRenaming

theorem exists_of_mem_right {α β : Type} {related : α → β → Prop} {items : List α} {others : List β}
    (all : List.Forall₂ related items others) {other : β} (member : other ∈ others) :
    ∃ item ∈ items, related item other := by
  induction all with
  | nil => cases member
  | cons here _ ih =>
    rcases List.mem_cons.1 member with rfl | later
    · exact ⟨_, List.mem_cons_self, here⟩
    · obtain ⟨item, listed, found⟩ := ih later
      exact ⟨item, List.mem_cons_of_mem _ listed, found⟩

def LeavesNames (names kept : List String) : Prop :=
  kept.Sublist names ∧ ∀ name ∈ names, name ∈ kept

theorem LeavesNames.refl (names : List String) : LeavesNames names names :=
  ⟨List.Sublist.refl _, fun _ member => member⟩

theorem LeavesNames.trans {first second third : List String} (before : LeavesNames first second)
    (after : LeavesNames second third) : LeavesNames first third :=
  ⟨after.1.trans before.1, fun name member => after.2 name (before.2 name member)⟩

theorem eraseDups_sublist {α : Type} [BEq α] : ∀ items : List α, items.eraseDups.Sublist items
  | [] => List.Sublist.refl _
  | first :: rest => by
    rw [List.eraseDups_cons]
    exact ((eraseDups_sublist _).trans List.filter_sublist).cons_cons first
termination_by items => items.length
decreasing_by exact Nat.lt_succ_of_le (List.length_filter_le _ _)

theorem leavesNames_eraseDups (names : List String) : LeavesNames names names.eraseDups :=
  ⟨eraseDups_sublist names, fun _ member => List.mem_eraseDups.2 member⟩

/-! What is left of an attribute: `none` when it goes. -/

def CodeAttribute.Leaves : CodeAttribute → Option CodeAttribute → Prop
  | .typeAnnotations visibility entries, left =>
    left = none ∨
      ∃ kept, left = some (.typeAnnotations visibility kept) ∧ kept.Sublist entries
  | item, left => left = some item

def CodeAttribute.AllLeave : List CodeAttribute → List CodeAttribute → Prop
  | [], left => left = []
  | first :: rest, left =>
    ∃ one others, left = one.toList ++ others ∧ first.Leaves one ∧
      CodeAttribute.AllLeave rest others

def Code.Leaves (code left : Code) : Prop :=
  ∃ kept, left = { code with attributes := kept } ∧ CodeAttribute.AllLeave code.attributes kept

mutual

def Attribute.Leaves : Attribute → Option Attribute → Prop
  | .exceptions names, left => ∃ kept, left = some (.exceptions kept) ∧ LeavesNames names kept
  | .annotations visibility entries, left =>
    left = none ∨ ∃ kept, left = some (.annotations visibility kept) ∧ kept.Sublist entries
  | .parameterAnnotations visibility parameters, left =>
    ∃ kept, left = some (.parameterAnnotations visibility kept) ∧
      List.Forall₂ List.Sublist kept parameters
  | .typeAnnotations visibility entries, left =>
    left = none ∨ ∃ kept, left = some (.typeAnnotations visibility kept) ∧ kept.Sublist entries
  | .record components, left =>
    ∃ kept, left = some (.record kept) ∧ Attribute.ComponentsLeave components kept
  | .code body, left => ∃ kept, left = some (.code kept) ∧ body.Leaves kept
  | item, left => left = some item

def Attribute.ComponentsLeave :
    List (RecordComponent Attribute) → List (RecordComponent Attribute) → Prop
  | [], left => left = []
  | ⟨name, descriptor, attributes⟩ :: rest, left =>
    ∃ kept others, left = ⟨name, descriptor, kept⟩ :: others ∧
      Attribute.AllLeave attributes kept ∧ Attribute.ComponentsLeave rest others

def Attribute.AllLeave : List Attribute → List Attribute → Prop
  | [], left => left = []
  | first :: rest, left =>
    ∃ one others, left = one.toList ++ others ∧ first.Leaves one ∧ Attribute.AllLeave rest others

end

structure Member.Leaves (member left : Member) : Prop where
  access : left.access = member.access
  name : left.name = member.name
  descriptor : left.descriptor = member.descriptor
  attributes : Attribute.AllLeave member.attributes left.attributes

structure ClassModel.Leaves (model left : ClassModel) : Prop where
  header : left.toClassHeader = { model.toClassHeader with interfaces := left.interfaces }
  interfaces : LeavesNames model.interfaces left.interfaces
  fields : List.Forall₂ Member.Leaves model.fields left.fields
  methods : List.Forall₂ Member.Leaves model.methods left.methods
  attributes : Attribute.AllLeave model.attributes left.attributes

/-! Nothing need go, and what is left may be left again. -/

theorem CodeAttribute.Leaves.refl (item : CodeAttribute) : item.Leaves (some item) := by
  cases item
  case typeAnnotations => exact .inr ⟨_, rfl, List.Sublist.refl _⟩
  all_goals rfl

theorem CodeAttribute.AllLeave.refl : ∀ attributes, CodeAttribute.AllLeave attributes attributes
  | [] => rfl
  | first :: rest => ⟨some first, rest, rfl, .refl first, .refl rest⟩

theorem CodeAttribute.Leaves.trans {first second : CodeAttribute} {third : Option CodeAttribute}
    (before : first.Leaves (some second)) (after : second.Leaves third) : first.Leaves third := by
  cases first
  case typeAnnotations =>
    obtain gone | ⟨kept, same, fewer⟩ := before
    · cases gone
    cases same
    obtain gone | ⟨others, rfl, less⟩ := after
    · exact .inl gone
    · exact .inr ⟨others, rfl, less.trans fewer⟩
  all_goals
    cases before
    exact after

theorem CodeAttribute.AllLeave.trans {first second third : List CodeAttribute}
    (before : AllLeave first second) (after : AllLeave second third) : AllLeave first third := by
  induction first generalizing second third with
  | nil =>
    cases before
    exact after
  | cons item rest ih =>
    obtain ⟨one, others, rfl, here, there⟩ := before
    cases one with
    | none => exact ⟨none, third, rfl, here, ih there after⟩
    | some kept =>
      obtain ⟨last, later, rfl, again, still⟩ := after
      exact ⟨last, later, rfl, here.trans again, ih there still⟩

theorem Code.Leaves.refl (code : Code) : code.Leaves code := ⟨_, rfl, .refl _⟩

theorem Code.Leaves.trans {first second third : Code} (before : first.Leaves second)
    (after : second.Leaves third) : first.Leaves third := by
  obtain ⟨kept, rfl, here⟩ := before
  obtain ⟨others, rfl, there⟩ := after
  exact ⟨others, rfl, here.trans there⟩

theorem sublist_flatten {α : Type} {lists kept : List (List α)}
    (fewer : List.Forall₂ List.Sublist kept lists) : kept.flatten.Sublist lists.flatten := by
  induction fewer with
  | nil => exact List.Sublist.refl _
  | cons here _ ih => exact here.append ih

theorem forall₂_trans {α : Type} {r : α → α → Prop} (trans : ∀ {a b c}, r a b → r b c → r a c)
    {first second third : List α} (before : List.Forall₂ r first second)
    (after : List.Forall₂ r second third) : List.Forall₂ r first third := by
  induction before generalizing third with
  | nil =>
    cases after
    exact .nil
  | cons here _ ih =>
    obtain _ | ⟨there, rest⟩ := after
    exact .cons (trans here there) (ih rest)

mutual

theorem Attribute.Leaves.refl : ∀ item : Attribute, item.Leaves (some item)
  | .exceptions names => ⟨names, rfl, .refl names⟩
  | .annotations _ _ | .typeAnnotations _ _ => .inr ⟨_, rfl, List.Sublist.refl _⟩
  | .parameterAnnotations _ _ =>
    ⟨_, rfl, List.forall₂_same.2 fun _ _ => List.Sublist.refl _⟩
  | .record components => ⟨components, rfl, Attribute.ComponentsLeave.refl components⟩
  | .code body => ⟨body, rfl, .refl body⟩
  | .signature _ | .constantValue _ | .annotationDefault _ | .innerClasses _
  | .enclosingMethod _ _ | .nestHost _ | .nestMembers _ | .permittedSubclasses _
  | .bootstrapMethods | .unknown _ _ => rfl

theorem Attribute.ComponentsLeave.refl : ∀ components,
    Attribute.ComponentsLeave components components
  | [] => rfl
  | ⟨_, _, attributes⟩ :: rest =>
    ⟨attributes, rest, rfl, Attribute.AllLeave.refl attributes, Attribute.ComponentsLeave.refl rest⟩

theorem Attribute.AllLeave.refl : ∀ attributes, Attribute.AllLeave attributes attributes
  | [] => rfl
  | first :: rest =>
    ⟨some first, rest, rfl, Attribute.Leaves.refl first, Attribute.AllLeave.refl rest⟩

end

mutual

theorem Attribute.Leaves.trans : ∀ {first second : Attribute} {third : Option Attribute},
    first.Leaves (some second) → second.Leaves third → first.Leaves third
  | .exceptions _, _, _, ⟨_, rfl, before⟩, ⟨kept, rfl, after⟩ => ⟨kept, rfl, before.trans after⟩
  | .annotations _ _, _, _, .inr ⟨_, rfl, _⟩, .inl gone => .inl gone
  | .annotations _ _, _, _, .inr ⟨_, rfl, fewer⟩, .inr ⟨kept, rfl, less⟩ =>
    .inr ⟨kept, rfl, less.trans fewer⟩
  | .typeAnnotations _ _, _, _, .inr ⟨_, rfl, _⟩, .inl gone => .inl gone
  | .typeAnnotations _ _, _, _, .inr ⟨_, rfl, fewer⟩, .inr ⟨kept, rfl, less⟩ =>
    .inr ⟨kept, rfl, less.trans fewer⟩
  | .parameterAnnotations _ _, _, _, ⟨_, rfl, before⟩, ⟨kept, rfl, after⟩ =>
    ⟨kept, rfl, forall₂_trans .trans after before⟩
  | .record _, _, _, ⟨_, rfl, before⟩, ⟨kept, rfl, after⟩ =>
    ⟨kept, rfl, Attribute.ComponentsLeave.trans before after⟩
  | .code _, _, _, ⟨_, rfl, before⟩, ⟨kept, rfl, after⟩ => ⟨kept, rfl, before.trans after⟩
  | .signature _, _, _, rfl, after | .constantValue _, _, _, rfl, after
  | .annotationDefault _, _, _, rfl, after | .innerClasses _, _, _, rfl, after
  | .enclosingMethod _ _, _, _, rfl, after | .nestHost _, _, _, rfl, after
  | .nestMembers _, _, _, rfl, after | .permittedSubclasses _, _, _, rfl, after
  | .bootstrapMethods, _, _, rfl, after | .unknown _ _, _, _, rfl, after => after

theorem Attribute.ComponentsLeave.trans :
    ∀ {first second third : List (RecordComponent Attribute)},
      Attribute.ComponentsLeave first second → Attribute.ComponentsLeave second third →
        Attribute.ComponentsLeave first third
  | [], _, _, rfl, after => after
  | _ :: _, _, _, ⟨_, _, rfl, here, there⟩, ⟨kept, others, rfl, again, still⟩ =>
    ⟨kept, others, rfl, Attribute.AllLeave.trans here again,
      Attribute.ComponentsLeave.trans there still⟩

theorem Attribute.AllLeave.trans : ∀ {first second third : List Attribute},
    Attribute.AllLeave first second → Attribute.AllLeave second third →
      Attribute.AllLeave first third
  | [], _, _, rfl, after => after
  | _ :: _, _, third, ⟨none, _, rfl, here, there⟩, after =>
    ⟨none, third, rfl, here, Attribute.AllLeave.trans there after⟩
  | _ :: _, _, _, ⟨some _, _, rfl, here, there⟩, ⟨one, others, rfl, again, still⟩ =>
    ⟨one, others, rfl, Attribute.Leaves.trans here again, Attribute.AllLeave.trans there still⟩

end

theorem keepNew_sublist {α : Type} (key : α → AnnotationKey) (items : List α) (seen : Keys) :
    (keepNew key items seen).1.Sublist items := by
  induction items generalizing seen with
  | nil => exact List.Sublist.refl _
  | cons item rest ih =>
    rw [keepNew]
    split
    · exact (ih seen).cons item
    · exact (ih _).cons_cons item

theorem keepNewByIndex_sublist {α : Type} (key : Nat → α → AnnotationKey) (index : Nat)
    (lists : List (List α)) (seen : Keys) :
    List.Forall₂ List.Sublist (keepNewByIndex key index lists seen).1 lists := by
  induction lists generalizing index seen with
  | nil => exact .nil
  | cons items rest ih => exact .cons (keepNew_sublist _ _ _) (ih _ _)

theorem CodeAttribute.keepVisibility_leaves (visibility : Visibility)
    (attributes : List CodeAttribute) (seen : Keys) :
    AllLeave attributes (keepVisibility visibility attributes seen).1 := by
  induction attributes generalizing seen with
  | nil => rfl
  | cons first rest ih =>
    cases first
    case typeAnnotations found entries =>
      rw [keepVisibility]
      split
      · next same =>
        dsimp only
        split
        · exact ⟨none, _, rfl, .inl rfl, ih _⟩
        · exact ⟨some _, _, rfl, .inr ⟨_, rfl, keepNew_sublist _ _ _⟩, ih _⟩
      · exact ⟨some _, _, rfl, .refl _, ih _⟩
    all_goals exact ⟨some _, _, rfl, .refl _, ih _⟩

theorem Code.settle_leaves (code : Code) : code.Leaves code.settle :=
  ⟨_, rfl, (CodeAttribute.keepVisibility_leaves .visible code.attributes []).trans
    (CodeAttribute.keepVisibility_leaves .invisible _ _)⟩

theorem Attribute.keepNew_leaves (item : Attribute) (seen : Keys) :
    item.Leaves (item.keepNew seen).1 := by
  cases item
  case annotations visibility entries =>
    simp only [Attribute.keepNew]
    split
    · exact .inl rfl
    · exact .inr ⟨_, rfl, keepNew_sublist _ _ _⟩
  case typeAnnotations visibility entries =>
    simp only [Attribute.keepNew]
    split
    · exact .inl rfl
    · exact .inr ⟨_, rfl, keepNew_sublist _ _ _⟩
  case parameterAnnotations visibility parameters =>
    exact ⟨_, rfl, keepNewByIndex_sublist _ _ _ _⟩
  all_goals exact Attribute.Leaves.refl _

theorem Attribute.keepVisibility_leaves (visibility : Visibility) (attributes : List Attribute)
    (seen : Keys) : AllLeave attributes (keepVisibility visibility attributes seen).1 := by
  induction attributes generalizing seen with
  | nil => rfl
  | cons first rest ih =>
    rw [keepVisibility]
    split
    · exact ⟨_, _, rfl, first.keepNew_leaves seen, ih _⟩
    · exact ⟨some first, _, rfl, .refl first, ih _⟩

theorem Attribute.settleAnnotations_leaves (attributes : List Attribute) :
    AllLeave attributes (settleAnnotations attributes) :=
  (keepVisibility_leaves .visible attributes []).trans (keepVisibility_leaves .invisible _ _)

mutual

theorem Attribute.settleInside_leaves : ∀ item : Attribute, item.Leaves (some item.settleInside)
  | .exceptions names => ⟨_, rfl, leavesNames_eraseDups names⟩
  | .record components => ⟨_, rfl, Attribute.settleComponents_leaves components⟩
  | .code body => ⟨_, rfl, body.settle_leaves⟩
  | .annotations _ _ | .typeAnnotations _ _ | .parameterAnnotations _ _ | .signature _
  | .constantValue _ | .annotationDefault _ | .innerClasses _ | .enclosingMethod _ _ | .nestHost _
  | .nestMembers _ | .permittedSubclasses _ | .bootstrapMethods | .unknown _ _ => .refl _

theorem Attribute.settleComponents_leaves : ∀ components,
    Attribute.ComponentsLeave components (Attribute.settleComponents components)
  | [] => rfl
  | ⟨_, _, attributes⟩ :: rest =>
    ⟨_, _, rfl, (Attribute.settleEach_leaves attributes).trans (settleAnnotations_leaves _),
      Attribute.settleComponents_leaves rest⟩

theorem Attribute.settleEach_leaves : ∀ attributes,
    Attribute.AllLeave attributes (Attribute.settleEach attributes)
  | [] => rfl
  | first :: rest =>
    ⟨some _, _, rfl, Attribute.settleInside_leaves first, Attribute.settleEach_leaves rest⟩

end

theorem Attribute.settle_leaves (attributes : List Attribute) :
    AllLeave attributes (Attribute.settle attributes) :=
  (settleEach_leaves attributes).trans (settleAnnotations_leaves _)

theorem Member.settle_leaves (member : Member) : member.Leaves member.settle :=
  ⟨rfl, rfl, rfl, Attribute.settle_leaves member.attributes⟩

theorem ClassModel.settle_leaves (model : ClassModel) : model.Leaves model.settle where
  header := rfl
  interfaces := leavesNames_eraseDups model.interfaces
  fields := List.forall₂_map_right_iff.2 (List.forall₂_same.2 fun member _ => member.settle_leaves)
  methods := List.forall₂_map_right_iff.2 (List.forall₂_same.2 fun member _ => member.settle_leaves)
  attributes := Attribute.settle_leaves model.attributes

end ClassRenaming
