import ClassRenaming.Proofs.WrittenClasses

/-!
The attributes of a class at every depth: its own, those of its fields and methods, and those of the
components of records. Each was read by itself, and what holds of all of them in a file holds of all
of them in what derives from it, as long as mapping texts, leaving something out and reframing keep
it.
-/

namespace ClassRenaming

namespace Attribute

mutual

def nested : Attribute → List Attribute
  | .record components => .record components :: nestedComponents components
  | item => [item]

def nestedComponents : List (RecordComponent Attribute) → List Attribute
  | [] => []
  | ⟨_, _, attributes⟩ :: rest => nestedList attributes ++ nestedComponents rest

def nestedList : List Attribute → List Attribute
  | [] => []
  | first :: rest => first.nested ++ nestedList rest

end

theorem mem_nestedList {attributes : List Attribute} {item : Attribute} :
    item ∈ nestedList attributes ↔ ∃ outer ∈ attributes, item ∈ outer.nested := by
  induction attributes with
  | nil => simp [nestedList]
  | cons first rest ih => simp [nestedList, ih]

theorem mem_nestedComponents {components : List (RecordComponent Attribute)} {item : Attribute} :
    item ∈ nestedComponents components ↔
      ∃ component ∈ components, item ∈ nestedList component.attributes := by
  induction components with
  | nil => simp [nestedComponents]
  | cons first rest ih => simp [nestedComponents, ih]

end Attribute

def ClassModel.allAttributes (model : ClassModel) : List Attribute :=
  (model.fields ++ model.methods).flatMap (fun member => Attribute.nestedList member.attributes) ++
    Attribute.nestedList model.attributes

section Reading

open Reader

variable {pool : ConstantPool}

namespace Attribute

def IsRead (pool : ConstantPool) (item : Attribute) : Prop :=
  ∃ depth name info, Attribute.read pool depth name info = .ok item

open TypeAnnotation (readTable) in
def ReadFrom (pool : ConstantPool) (depth : Nat) (info : Bytes) : Attribute → Prop
  | .record components =>
    ∃ leftover, (table (readComponent pool depth)).all info leftover = .ok components
  | .code body => Code.read pool info = .ok body
  | .typeAnnotations _ entries =>
    ∃ leftover, (readTable pool).all info leftover = .ok entries
  | _ => True

theorem readFrom_of_read {depth : Nat} {name : String} {info : Bytes} {item : Attribute}
    (done : Attribute.read pool (depth + 1) name info = .ok item) : item.ReadFrom pool depth info := by
  unfold Attribute.read at done
  split at done
  case h_8 | h_9 | h_11 =>
    obtain ⟨parts, read, rfl⟩ := Except.map_eq_ok.1 done
    exact ⟨_, read⟩
  case h_13 =>
    have gives : Gives (do
        return Attribute.enclosingMethod (← pool.takeClassName) (← takeNameAndType? pool))
        fun _ item => item.ReadFrom pool depth info :=
      Gives.any.bind fun _ _ _ => Gives.any.bind fun _ _ _ => .pure trivial
    exact gives.all done
  case h_17 =>
    obtain ⟨body, read, rfl⟩ := Except.map_eq_ok.1 done
    exact read
  case h_18 | h_19 =>
    cases done
    trivial
  all_goals
    obtain ⟨parts, -, rfl⟩ := Except.map_eq_ok.1 done
    trivial

theorem isRead_components {depth : Nat} {name : String} {info : Bytes}
    {components : List (RecordComponent Attribute)}
    (done : Attribute.read pool (depth + 1) name info = .ok (.record components)) :
    ∀ component ∈ components, ∀ item ∈ component.attributes,
      ∃ name info, Attribute.read pool depth name info = .ok item := by
  obtain ⟨leftover, read⟩ : ReadFrom pool depth info (.record components) := readFrom_of_read done
  have inside : Gives (do
      let part ← takeAttribute pool
      Attribute.read pool depth part.1 part.2) fun _ item =>
        ∃ name info, Attribute.read pool depth name info = .ok item :=
    Gives.any.bind fun _ part _ => Gives.lift.mono fun _ _ read => ⟨part.1, part.2, read.2⟩
  have gives : Gives (readComponent pool depth) fun _ component => ∀ item ∈ component.attributes,
      ∃ name info, Attribute.read pool depth name info = .ok item :=
    Gives.any.bind fun _ _ _ => Gives.any.bind fun _ _ _ => inside.table.bind fun _ _ all =>
      .pure all
  exact gives.table.all read

theorem isRead_nested {depth : Nat} {name : String} {info : Bytes} {outer : Attribute}
    (done : Attribute.read pool depth name info = .ok outer) :
    ∀ item ∈ outer.nested, item.IsRead pool := by
  induction depth generalizing name info outer with
  | zero => cases done
  | succ depth ih =>
    intro item member
    cases outer
    case record components =>
      rcases List.mem_cons.1 member with rfl | inside
      · exact ⟨_, _, _, done⟩
      · obtain ⟨component, listed, inside⟩ := mem_nestedComponents.1 inside
        obtain ⟨other, among, inside⟩ := mem_nestedList.1 inside
        obtain ⟨name, info, read⟩ := isRead_components done component listed other among
        exact ih read item inside
    all_goals
      rw [List.mem_singleton.1 member]
      exact ⟨_, _, _, done⟩

end Attribute

theorem RawAttribute.isRead_of_mapM {raws : List RawAttribute} {attributes : List Attribute}
    (done : raws.mapM (decode pool) = .ok attributes) :
    ∀ item ∈ Attribute.nestedList attributes, item.IsRead pool := by
  intro item member
  obtain ⟨outer, listed, inside⟩ := Attribute.mem_nestedList.1 member
  obtain ⟨raw, -, decoded⟩ := Except.exists_of_mem_mapM done listed
  obtain ⟨name, -, read⟩ := Except.bind_eq_ok.1 decoded
  exact Attribute.isRead_nested read item inside

theorem Member.isRead_of_mapM {raws : List RawMember} {members : List Member}
    (done : raws.mapM (RawMember.decode pool) = .ok members) :
    ∀ member ∈ members, ∀ item ∈ Attribute.nestedList member.attributes, item.IsRead pool := by
  intro member listed
  obtain ⟨raw, -, decoded⟩ := Except.exists_of_mem_mapM done listed
  obtain ⟨attributes, each, decoded⟩ := Except.bind_eq_ok.1 decoded
  cases decoded
  exact RawAttribute.isRead_of_mapM each

theorem ClassFile.isRead_of_parse {bytes : Bytes} {file : ClassFile}
    (done : parse bytes = .ok file) : ∀ item ∈ file.model.allAttributes, item.IsRead file.pool := by
  obtain ⟨skeleton, -, done⟩ := Except.bind_eq_ok.1 done
  obtain ⟨rows, -, done⟩ := Except.bind_eq_ok.1 done
  obtain ⟨fields, fieldsRead, done⟩ := Except.bind_eq_ok.1 done
  obtain ⟨methods, methodsRead, done⟩ := Except.bind_eq_ok.1 done
  obtain ⟨attributes, attributesRead, done⟩ := Except.bind_eq_ok.1 done
  cases done
  intro item listed
  rcases List.mem_append.1 listed with listed | own
  · obtain ⟨member, among, inside⟩ := List.mem_flatMap.1 listed
    rcases List.mem_append.1 among with field | method
    · exact Member.isRead_of_mapM fieldsRead member field item inside
    · exact Member.isRead_of_mapM methodsRead member method item inside
  · exact RawAttribute.isRead_of_mapM attributesRead item own

end Reading

section Deriving

namespace Attribute

variable {m : TextMap}

mutual

theorem nested_mapTexts (kind : Signature.Kind) : ∀ (outer item : Attribute),
    item ∈ (outer.mapTexts m kind).nested →
      ∃ old ∈ outer.nested, ∃ kind, item = old.mapTexts m kind
  | .record components, item, member => by
    rcases List.mem_cons.1 member with rfl | inside
    · exact ⟨_, List.mem_cons_self, kind, rfl⟩
    · obtain ⟨old, listed, found⟩ := nestedComponents_mapTexts components item inside
      exact ⟨old, List.mem_cons_of_mem _ listed, found⟩
  | .constantValue constant, item, member => by
    cases constant <;> exact ⟨_, List.mem_cons_self, kind, List.mem_singleton.1 member⟩
  | .signature _, _, member | .exceptions _, _, member | .annotations _ _, _, member
  | .parameterAnnotations _ _, _, member | .typeAnnotations _ _, _, member
  | .annotationDefault _, _, member | .innerClasses _, _, member | .enclosingMethod _ _, _, member
  | .nestHost _, _, member | .nestMembers _, _, member | .permittedSubclasses _, _, member
  | .code _, _, member | .bootstrapMethods, _, member | .unknown _ _, _, member =>
    ⟨_, List.mem_cons_self, kind, List.mem_singleton.1 member⟩

theorem nestedComponents_mapTexts : ∀ (components : List (RecordComponent Attribute))
    (item : Attribute), item ∈ nestedComponents (mapTextsComponents m components) →
      ∃ old ∈ nestedComponents components, ∃ kind, item = old.mapTexts m kind
  | [], _, member => nomatch member
  | ⟨_, _, attributes⟩ :: rest, item, member => by
    rcases List.mem_append.1 member with here | there
    · obtain ⟨old, listed, found⟩ := nestedList_mapTexts .field attributes item here
      exact ⟨old, List.mem_append_left _ listed, found⟩
    · obtain ⟨old, listed, found⟩ := nestedComponents_mapTexts rest item there
      exact ⟨old, List.mem_append_right _ listed, found⟩

theorem nestedList_mapTexts (kind : Signature.Kind) : ∀ (attributes : List Attribute)
    (item : Attribute), item ∈ nestedList (mapTextsList m kind attributes) →
      ∃ old ∈ nestedList attributes, ∃ kind, item = old.mapTexts m kind
  | [], _, member => nomatch member
  | first :: rest, item, member => by
    rcases List.mem_append.1 member with here | there
    · obtain ⟨old, listed, found⟩ := nested_mapTexts kind first item here
      exact ⟨old, List.mem_append_left _ listed, found⟩
    · obtain ⟨old, listed, found⟩ := nestedList_mapTexts kind rest item there
      exact ⟨old, List.mem_append_right _ listed, found⟩

end

theorem nested_left {outer left : Attribute} (leaves : outer.Leaves (some left))
    (other : ∀ components, outer ≠ .record components) : left.nested = [left] := by
  cases outer
  case record components => exact absurd rfl (other components)
  case exceptions | parameterAnnotations | code =>
    obtain ⟨kept, same, -⟩ := leaves
    cases same
    rfl
  case annotations | typeAnnotations =>
    obtain gone | ⟨kept, same, -⟩ := leaves
    · cases gone
    · cases same
      rfl
  all_goals
    cases leaves
    rfl

mutual

theorem nested_leaves : ∀ (outer left item : Attribute), outer.Leaves (some left) →
    item ∈ left.nested → ∃ old ∈ outer.nested, old.Leaves (some item)
  | .record components, _, item, ⟨_, rfl, leave⟩, member => by
    rcases List.mem_cons.1 member with rfl | inside
    · exact ⟨_, List.mem_cons_self, _, rfl, leave⟩
    · obtain ⟨old, listed, found⟩ := nestedComponents_leave components _ item leave inside
      exact ⟨old, List.mem_cons_of_mem _ listed, found⟩
  | .signature _, _, _, leaves, member | .constantValue _, _, _, leaves, member
  | .exceptions _, _, _, leaves, member | .annotations _ _, _, _, leaves, member
  | .parameterAnnotations _ _, _, _, leaves, member | .typeAnnotations _ _, _, _, leaves, member
  | .annotationDefault _, _, _, leaves, member | .innerClasses _, _, _, leaves, member
  | .enclosingMethod _ _, _, _, leaves, member | .nestHost _, _, _, leaves, member
  | .nestMembers _, _, _, leaves, member | .permittedSubclasses _, _, _, leaves, member
  | .code _, _, _, leaves, member | .bootstrapMethods, _, _, leaves, member
  | .unknown _ _, _, _, leaves, member => by
    rw [nested_left leaves nofun] at member
    rw [List.mem_singleton.1 member]
    exact ⟨_, List.mem_cons_self, leaves⟩

theorem nestedComponents_leave : ∀ (components left : List (RecordComponent Attribute))
    (item : Attribute), ComponentsLeave components left → item ∈ nestedComponents left →
      ∃ old ∈ nestedComponents components, old.Leaves (some item)
  | [], _, _, rfl, member => nomatch member
  | ⟨_, _, attributes⟩ :: rest, _, item, ⟨kept, others, rfl, here, there⟩, member => by
    rcases List.mem_append.1 member with front | back
    · obtain ⟨old, listed, found⟩ := nestedList_leave attributes kept item here front
      exact ⟨old, List.mem_append_left _ listed, found⟩
    · obtain ⟨old, listed, found⟩ := nestedComponents_leave rest others item there back
      exact ⟨old, List.mem_append_right _ listed, found⟩

theorem nestedList_leave : ∀ (attributes left : List Attribute) (item : Attribute),
    AllLeave attributes left → item ∈ nestedList left →
      ∃ old ∈ nestedList attributes, old.Leaves (some item)
  | [], _, _, rfl, member => nomatch member
  | first :: rest, _, item, ⟨none, others, rfl, here, there⟩, member => by
    obtain ⟨old, listed, found⟩ := nestedList_leave rest others item there member
    exact ⟨old, List.mem_append_right _ listed, found⟩
  | first :: rest, _, item, ⟨some kept, others, rfl, here, there⟩, member => by
    rcases List.mem_append.1 member with front | back
    · obtain ⟨old, listed, found⟩ := nested_leaves first kept item here front
      exact ⟨old, List.mem_append_left _ listed, found⟩
    · obtain ⟨old, listed, found⟩ := nestedList_leave rest others item there back
      exact ⟨old, List.mem_append_right _ listed, found⟩

end

theorem Reframed.nested {good : String → Prop} {outer result item : Attribute}
    (reframed : outer.Reframed good result) (member : item ∈ result.nested) :
    ∃ old ∈ outer.nested, old.Reframed good item := by
  obtain rfl | ⟨body, new, rfl, rfl, inside⟩ := reframed
  · exact ⟨item, member, .inl rfl⟩
  · exact ⟨.code body, List.mem_cons_self,
      .inr ⟨body, new, rfl, List.mem_singleton.1 member, inside⟩⟩

end Attribute

theorem ClassModel.allAttributes_mapTexts {m : TextMap} {model : ClassModel} {item : Attribute}
    (listed : item ∈ (model.mapTexts m).allAttributes) :
    ∃ old ∈ model.allAttributes, ∃ kind, item = old.mapTexts m kind := by
  rcases List.mem_append.1 listed with listed | own
  · obtain ⟨new, among, inside⟩ := List.mem_flatMap.1 listed
    have origin : ∃ member ∈ model.fields ++ model.methods, ∃ kind,
        new = Member.mapTexts m kind member := by
      rcases List.mem_append.1 among with field | method
      · obtain ⟨member, here, rfl⟩ := List.mem_map.1 field
        exact ⟨member, List.mem_append_left _ here, .field, rfl⟩
      · obtain ⟨member, here, rfl⟩ := List.mem_map.1 method
        exact ⟨member, List.mem_append_right _ here, .method, rfl⟩
    obtain ⟨member, here, kind, rfl⟩ := origin
    obtain ⟨old, there, found⟩ := Attribute.nestedList_mapTexts kind member.attributes item inside
    exact ⟨old, List.mem_append_left _ (List.mem_flatMap.2 ⟨member, here, there⟩), found⟩
  · obtain ⟨old, there, found⟩ := Attribute.nestedList_mapTexts .type model.attributes item own
    exact ⟨old, List.mem_append_right _ there, found⟩

theorem ClassModel.Leaves.allAttributes {model left : ClassModel} (leaves : model.Leaves left)
    {item : Attribute} (listed : item ∈ left.allAttributes) :
    ∃ old ∈ model.allAttributes, old.Leaves (some item) := by
  rcases List.mem_append.1 listed with listed | own
  · obtain ⟨new, among, inside⟩ := List.mem_flatMap.1 listed
    obtain ⟨member, here, left⟩ :=
      exists_of_mem_right (List.rel_append leaves.fields leaves.methods) among
    obtain ⟨old, there, found⟩ := Attribute.nestedList_leave _ _ item left.attributes inside
    exact ⟨old, List.mem_append_left _ (List.mem_flatMap.2 ⟨member, here, there⟩), found⟩
  · obtain ⟨old, there, found⟩ := Attribute.nestedList_leave _ _ item leaves.attributes own
    exact ⟨old, List.mem_append_right _ there, found⟩

theorem ClassModel.allAttributes_recomputed {model : ClassModel} {context : FrameContext}
    {name : String} {major : UInt16} {cache after : MetadataCache} {methods : List Member}
    (done : (model.methods.mapM (Relocator.recomputeMember context name major)).run cache =
      (.ok methods, after)) {item : Attribute}
    (listed : item ∈ ({ model with methods } : ClassModel).allAttributes) :
    ∃ old ∈ model.allAttributes, old.Reframed (fun _ => True) item := by
  have each : ∀ member ∈ model.methods, Keeps context.hierarchy (fun _ => True)
      (Relocator.recomputeMember context name major member) fun result =>
        ∃ attributes, result = { member with attributes } ∧
          List.Forall₂ (Attribute.Reframed fun _ => True) member.attributes attributes :=
    fun member _ => keeps_reframedMember .trivial trivial fun _ _ => trivial
  have anything : context.hierarchy.Declares (fun _ => True) cache :=
    fun _ => ⟨fun _ _ => trivial, fun _ _ => trivial⟩
  have all := (Keeps.mapM each cache anything).1 methods (congrArg Prod.fst done)
  rcases List.mem_append.1 listed with listed | own
  · obtain ⟨new, among, inside⟩ := List.mem_flatMap.1 listed
    rcases List.mem_append.1 among with field | method
    · have here := List.mem_append_left model.methods field
      exact ⟨item, List.mem_append_left _ (List.mem_flatMap.2 ⟨new, here, inside⟩), .inl rfl⟩
    · obtain ⟨member, before, attributes, rfl, reframed⟩ := exists_of_mem_right all method
      obtain ⟨result, there, inside⟩ := Attribute.mem_nestedList.1 inside
      obtain ⟨outer, first, same⟩ := exists_of_mem_right reframed there
      obtain ⟨old, last, found⟩ := same.nested inside
      have here := List.mem_append_right model.fields before
      exact ⟨old, List.mem_append_left _ (List.mem_flatMap.2
        ⟨member, here, Attribute.mem_nestedList.2 ⟨outer, first, last⟩⟩), found⟩
  · exact ⟨item, List.mem_append_right _ own, .inl rfl⟩

theorem ClassFile.Derives.forall_attributes {file : ClassFile} {model : ClassModel}
    (derives : file.Derives model) {good : Attribute → Prop}
    (mapped : ∀ (m : TextMap) (item : Attribute) (kind : Signature.Kind),
      m.KeepsNames → good item → good (item.mapTexts m kind))
    (left : ∀ item rest : Attribute, item.Leaves (some rest) → good item → good rest)
    (reframed : ∀ item result : Attribute,
      item.Reframed (fun _ => True) result → good item → good result)
    (first : ∀ item ∈ file.model.allAttributes, good item) :
    ∀ item ∈ model.allAttributes, good item := by
  induction derives with
  | parsed => exact first
  | renamed table _ ih =>
    intro item listed
    rw [ClassModel.relocate, ClassModel.rename_eq] at listed
    obtain ⟨new, among, leaves⟩ := (ClassModel.settle_leaves _).allAttributes listed
    obtain ⟨old, before, kind, rfl⟩ := ClassModel.allAttributes_mapTexts among
    exact left _ item leaves (mapped _ old kind (fun _ => rfl) (ih old before))
  | recomputed _ done ih =>
    intro item listed
    obtain ⟨old, before, same⟩ := ClassModel.allAttributes_recomputed done listed
    exact reframed old item same (ih old before)

end Deriving

end ClassRenaming
