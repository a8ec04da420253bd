import ClassRenaming.Frames.Recomputing
import ClassRenaming.Proofs.HierarchyView
import ClassRenaming.Proofs.Reading

/-!
Types that states get. A property of the types that an instruction makes passes from the state that
it is executed in to the state behind it, and one that merging two types keeps passes to what two
states have in common.
-/

namespace ClassRenaming

theorem liftDescriptor_eq_ok {α : Type} {parsed : Except FormatError α} {type : α}
    (done : liftDescriptor parsed = .ok type) : parsed = .ok type := by
  cases parsed with
  | error cause => cases done
  | ok value =>
    cases done
    rfl

namespace VerificationType

inductive Plain : VerificationType → Prop
  | top : Plain .top
  | integer : Plain .integer
  | float : Plain .float
  | double : Plain .double
  | long : Plain .long
  | null : Plain .null

def Constructed : VerificationType → Prop
  | .uninitializedThis | .uninitialized _ => False
  | _ => True

theorem Plain.constructed {type : VerificationType} (plain : type.Plain) : type.Constructed := by
  cases plain <;> trivial

theorem constructed_ofFieldType (type : FieldType) : (ofFieldType type).Constructed := by
  cases type with
  | base type => cases type <;> trivial
  | object name => trivial
  | array component => trivial

theorem constructed_element {array type : VerificationType} (done : array.element = .ok type) :
    type.Constructed := by
  unfold element at done
  split at done
  · cases done
    trivial
  · split at done
    · obtain ⟨parsed, -, rfl⟩ := Except.map_eq_ok.1 done
      exact constructed_ofFieldType parsed
    · cases done
  · cases done

theorem constructed_ofConstant {constant : Constant} {type : VerificationType}
    (done : ofConstant constant = .ok type) : type.Constructed := by
  cases constant with
  | dynamic name descriptor bootstrap =>
    obtain ⟨parsed, -, rfl⟩ := Except.map_eq_ok.1 done
    exact constructed_ofFieldType parsed
  | _ =>
    cases done
    trivial

theorem constructed_arrayOf (name : String) : (arrayOf name).Constructed := by
  unfold arrayOf
  split <;> trivial

theorem constructed_baseArray {code : UInt8} {type : VerificationType}
    (done : baseArray code = .ok type) : type.Constructed := by
  unfold baseArray at done
  split at done <;> cases done <;> trivial

end VerificationType

theorem plain_of_kindType? {kind : Nat} {type : VerificationType}
    (known : kindType? kind = some type) : type.Plain := by
  unfold kindType? at known
  split at known <;> cases known <;> constructor

namespace Effect

def pushesName : Effect → Bool
  | .replace _ (some (.object _)) | .replace _ (some (.uninitialized _)) => true
  | .replace _ (some .uninitializedThis) => true
  | _ => false

theorem pushesName_ofOpcode? : ∀ opcode, (Effect.ofOpcode? opcode).any pushesName = false :=
  forall_byte (by decide +kernel)

theorem plain_result {opcode : UInt8} {slots : Nat} {type : VerificationType}
    (known : Effect.ofOpcode? opcode = some (.replace slots (some type))) : type.Plain := by
  have nameless := pushesName_ofOpcode? opcode
  rw [known] at nameless
  cases type with
  | object | uninitialized | uninitializedThis => cases nameless
  | _ => constructor

end Effect

inductive Placed.Makes (owner : String) (made : Nat → Option String) (placed : Placed) :
    VerificationType → Prop
  | plain {type : VerificationType} (plain : type.Plain) : Makes owner made placed type
  | constant {opcode : UInt8} {constant : Constant} {type : VerificationType}
      (here : placed.instruction = .load opcode constant)
      (known : VerificationType.ofConstant constant = .ok type) : Makes owner made placed type
  | new {name : String} (here : placed.instruction = .type Opcode.new name) :
      Makes owner made placed (.uninitialized placed.offset)
  | array {opcode : UInt8} {name : String} (here : placed.instruction = .type opcode name) :
      Makes owner made placed (.arrayOf name)
  | cast {opcode : UInt8} {name : String} (here : placed.instruction = .type opcode name) :
      Makes owner made placed (.object name)
  | field {opcode : UInt8} {member : MemberRef} {type : FieldType}
      (here : placed.instruction = .field opcode member)
      (parsed : Descriptor.fieldType member.descriptor = .ok type) :
      Makes owner made placed (.ofFieldType type)
  | call {opcode : UInt8} {member : MemberRef} {isInterface : Bool} {type : MethodType}
      {result : FieldType} (here : placed.instruction = .method opcode member isInterface)
      (parsed : Descriptor.methodType member.descriptor = .ok type)
      (given : type.result = some result) : Makes owner made placed (.ofFieldType result)
  | dynamic {name descriptor : String} {bootstrap : BootstrapMethod} {type : MethodType}
      {result : FieldType} (here : placed.instruction = .invokeDynamic name descriptor bootstrap)
      (parsed : Descriptor.methodType descriptor = .ok type)
      (given : type.result = some result) : Makes owner made placed (.ofFieldType result)
  | baseArray {code : UInt8} {type : VerificationType} (here : placed.instruction = .newArray code)
      (known : VerificationType.baseArray code = .ok type) : Makes owner made placed type
  | multiArray {name : String} {dimensions : UInt8}
      (here : placed.instruction = .multiArray name dimensions) :
      Makes owner made placed (.object name)
  | this : Makes owner made placed (.object owner)
  | constructed {offset : Nat} {name : String} (new : made offset = some name) :
      Makes owner made placed (.object name)

structure FrameState.Each (good : VerificationType → Prop) (state : FrameState) : Prop where
  locals : ∀ type ∈ state.locals, good type
  stack : ∀ type ∈ state.stack, good type

namespace FrameState.Each

open VerificationType

variable {good : VerificationType → Prop} {state after : FrameState} {type : VerificationType}

theorem pop (each : state.Each good) (done : state.pop = .ok (type, after)) :
    good type ∧ after.Each good := by
  unfold FrameState.pop at done
  split at done
  · next rest stack =>
    cases done
    have slots := each.stack
    rw [stack, List.forall_mem_cons] at slots
    exact ⟨slots.1, each.locals, slots.2⟩
  · cases done

theorem drop (each : state.Each good) {count : Nat} (done : state.drop count = .ok after) :
    after.Each good := by
  unfold FrameState.drop at done
  split at done
  · cases done
  · cases done
    exact ⟨each.locals, fun type member => each.stack type (List.mem_of_mem_drop member)⟩

theorem construct (each : state.Each good) {before now : VerificationType} (here : good now) :
    (state.construct before now).Each good := by
  have mapped (slots : List VerificationType) (old : ∀ type ∈ slots, good type) :
      ∀ type ∈ slots.map fun type => if type = before then now else type, good type := by
    intro type member
    obtain ⟨slot, inside, rfl⟩ := List.mem_map.1 member
    split
    · exact here
    · exact old slot inside
  exact ⟨mapped _ each.locals, mapped _ each.stack⟩

theorem set {slots : List VerificationType} (each : ∀ type ∈ slots, good type) (here : good type)
    (index : Nat) : ∀ other ∈ slots.set index type, good other := by
  intro other member
  rcases List.mem_or_eq_of_mem_set member with old | rfl
  · exact each other old
  · exact here

variable (top : good .top)
include top

theorem push (each : state.Each good) (here : good type) : (state.push type).Each good := by
  refine ⟨each.locals, ?_⟩
  unfold FrameState.push
  split
  · simpa using ⟨top, here, each.stack⟩
  · simpa using ⟨here, each.stack⟩

theorem replace (each : state.Each good) {count : Nat} (here : good type)
    (done : state.replace count type = .ok after) : after.Each good := by
  obtain ⟨middle, dropped, rfl⟩ := Except.map_eq_ok.1 done
  exact (each.drop dropped).push top here

theorem getD {slots : List VerificationType} (each : ∀ type ∈ slots, good type) (index : Nat) :
    good (slots[index]?.getD .top) := by
  cases found : slots[index]? with
  | none => exact top
  | some type => exact each type (List.mem_of_getElem? found)

theorem rearrange (each : state.Each good) {depth : Nat} {order : List Nat}
    (done : state.rearrange depth order = .ok after) : after.Each good := by
  unfold FrameState.rearrange at done
  split at done
  · cases done
  · cases done
    refine ⟨each.locals, fun type member => ?_⟩
    rcases List.mem_append.1 member with moved | below
    · obtain ⟨index, -, rfl⟩ := List.mem_map.1 moved
      exact getD top each.stack index
    · exact each.stack type (List.mem_of_mem_drop below)

theorem extend {slots : List VerificationType} (each : ∀ type ∈ slots, good type) (length : Nat) :
    ∀ type ∈ FrameState.extend length slots, good type := by
  intro type member
  rcases List.mem_append.1 member with old | new
  · exact each type old
  · rw [List.eq_of_mem_replicate new]
    exact top

theorem reserve (each : state.Each good) (length : Nat) : (state.reserve length).Each good :=
  ⟨extend top each.locals length, each.stack⟩

theorem setLocal (each : state.Each good) (here : good type) (index : Nat) :
    (state.setLocal index type).Each good := by
  refine ⟨?_, each.stack⟩
  have cut : ∀ other ∈ cutWide index (FrameState.extend (index + type.slots) state.locals),
      good other := by
    have extended := extend top each.locals (index + type.slots)
    unfold cutWide
    split
    · exact set extended top _
    · exact extended
  unfold FrameState.setLocal
  dsimp only
  split
  · exact set (set cut here index) top _
  · exact set cut here index

omit top

variable (plain : ∀ type : VerificationType, type.Plain → good type)
include plain

theorem load (each : state.Each good) (kind index : Nat) : (state.load kind index).Each good := by
  have top := plain .top .top
  refine (each.reserve top _).push top ?_
  cases known : kindType? kind with
  | some type => exact plain type (plain_of_kindType? known)
  | none => exact getD top each.locals index

theorem store (each : state.Each good) {kind index : Nat}
    (done : state.store kind index = .ok after) : after.Each good := by
  have top := plain .top .top
  unfold FrameState.store at done
  split at done
  · next type known =>
    obtain ⟨middle, dropped, rfl⟩ := Except.map_eq_ok.1 done
    exact (each.drop dropped).setLocal top (plain type (plain_of_kindType? known)) index
  · obtain ⟨⟨type, middle⟩, popped, done⟩ := Except.bind_eq_ok.1 done
    cases done
    obtain ⟨here, rest⟩ := each.pop popped
    exact rest.setLocal top here index

variable (elements : ∀ array type : VerificationType, good array → array.element = .ok type →
  good type)

include elements in
theorem apply (each : state.Each good) {opcode : UInt8} {effect : Effect}
    (known : Effect.ofOpcode? opcode = some effect) (done : state.apply effect = .ok after) :
    after.Each good := by
  have top := plain .top .top
  cases effect with
  | replace count result =>
    cases result with
    | none => exact each.drop done
    | some type => exact each.replace top (plain type (Effect.plain_result known)) done
  | load kind index =>
    cases done
    exact each.load plain kind index
  | store kind index => exact each.store plain done
  | rearrange depth order => exact each.rearrange top done
  | element =>
    obtain ⟨middle, dropped, done⟩ := Except.bind_eq_ok.1 done
    obtain ⟨⟨array, rest⟩, popped, done⟩ := Except.bind_eq_ok.1 done
    obtain ⟨type, found, done⟩ := Except.bind_eq_ok.1 done
    cases done
    obtain ⟨here, others⟩ := (each.drop dropped).pop popped
    exact others.push top (elements array type here found)

theorem pushResult (each : state.Each good) {result : Option FieldType}
    (given : ∀ type, result = some type → good (ofFieldType type)) :
    (state.pushResult result).Each good := by
  cases result with
  | none => exact each
  | some type => exact each.push (plain .top .top) (given type rfl)

omit plain

variable {owner : String} {made : Nat → Option String}

theorem takeReceiver (each : state.Each good) (this : good (.object owner))
    (constructed : ∀ offset name, made offset = some name → good (.object name))
    {constructor : Bool} (done : state.takeReceiver owner made constructor = .ok after) :
    after.Each good := by
  obtain ⟨⟨receiver, middle⟩, popped, done⟩ := Except.bind_eq_ok.1 done
  obtain ⟨-, rest⟩ := each.pop popped
  dsimp only at done
  split at done
  · obtain ⟨found, whose, done⟩ := Except.bind_eq_ok.1 done
    cases found with
    | none =>
      cases done
      exact rest
    | some name =>
      cases done
      refine rest.construct ?_
      unfold constructed? at whose
      split at whose
      · cases whose
        exact this
      · split at whose
        · next makes =>
          cases whose
          exact constructed _ _ makes
        · cases whose
      · cases whose
  · cases done
    exact rest

include elements in
theorem execute {placed : Placed} (each : state.Each good)
    (makes : ∀ type, placed.Makes owner made type → good type)
    (done : state.execute owner made placed = .ok after) : after.Each good := by
  have plain (type : VerificationType) (plain : type.Plain) : good type := makes type (.plain plain)
  have top := plain .top .top
  obtain ⟨offset, instruction⟩ := placed
  cases instruction with
  | simple opcode =>
    simp only [FrameState.execute] at done
    split at done
    · next effect known => exact each.apply plain elements known done
    · cases done
  | push opcode value =>
    cases done
    exact each.push top (plain _ .integer)
  | load opcode constant =>
    obtain ⟨type, found, done⟩ := Except.bind_eq_ok.1 done
    cases done
    exact each.push top (makes type (.constant rfl found))
  | «local» opcode index wide =>
    simp only [FrameState.execute] at done
    split at done
    · cases done
      exact each.load plain _ _
    · split at done
      · exact each.store plain done
      · cases done
  | increment index delta wide =>
    cases done
    exact each.setLocal top (plain _ .integer) _
  | jump opcode target =>
    simp only [FrameState.execute] at done
    split at done
    · cases done
      exact each
    · split at done
      · cases done
      · split at done <;> exact each.drop done
  | tableSwitch default low high targets => exact each.drop done
  | lookupSwitch default pairs => exact each.drop done
  | type opcode name =>
    simp only [FrameState.execute] at done
    split at done
    · next new =>
      cases done
      exact each.push top (makes _ (.new (congrArg (Instruction.type · name) new)))
    · split at done
      · exact each.replace top (makes _ (.array rfl)) done
      · split at done
        · exact each.replace top (makes _ (.cast rfl)) done
        · exact each.replace top (plain _ .integer) done
  | field opcode member =>
    obtain ⟨type, found, done⟩ := Except.bind_eq_ok.1 done
    have read := makes _ (.field rfl (liftDescriptor_eq_ok found))
    split at done
    · cases done
      exact each.push top read
    · split at done
      · exact each.drop done
      · split at done
        · exact each.replace top read done
        · exact each.drop done
  | method opcode member isInterface =>
    obtain ⟨type, found, done⟩ := Except.bind_eq_ok.1 done
    have given (result : FieldType) (same : type.result = some result) : good (ofFieldType result) :=
      makes _ (.call rfl (liftDescriptor_eq_ok found) same)
    obtain ⟨middle, dropped, done⟩ := Except.bind_eq_ok.1 done
    have fewer := each.drop dropped
    dsimp only at done
    split at done
    · cases done
      exact fewer.pushResult plain given
    · obtain ⟨rest, taken, done⟩ := Except.bind_eq_ok.1 done
      cases done
      have received := fewer.takeReceiver (makes _ .this) (fun _ _ new => makes _ (.constructed new)) taken
      exact received.pushResult plain given
  | invokeDynamic name descriptor bootstrap =>
    obtain ⟨type, found, done⟩ := Except.bind_eq_ok.1 done
    obtain ⟨middle, dropped, done⟩ := Except.bind_eq_ok.1 done
    cases done
    exact (each.drop dropped).pushResult plain fun result same =>
      makes _ (.dynamic rfl (liftDescriptor_eq_ok found) same)
  | newArray code =>
    obtain ⟨middle, dropped, done⟩ := Except.bind_eq_ok.1 done
    obtain ⟨type, found, done⟩ := Except.bind_eq_ok.1 done
    cases done
    exact (each.drop dropped).push top (makes _ (.baseArray rfl found))
  | multiArray name dimensions => exact each.replace top (makes _ (.multiArray rfl)) done

theorem onEntry (top : good .top) {member : Member} {entry : FrameState}
    (receiver : good (receiver owner member))
    (parameters : ∀ type, Descriptor.methodType member.descriptor = .ok type →
      ∀ parameter ∈ type.parameters, good (ofFieldType parameter))
    (done : FrameState.onEntry owner member = .ok entry) : entry.Each good := by
  obtain ⟨type, found, done⟩ := Except.bind_eq_ok.1 done
  cases done
  refine ⟨fun slot member => ?_, by simp⟩
  rcases List.mem_append.1 member with first | later
  · split at first
    · cases first
    · rwa [List.mem_singleton.1 first]
  · obtain ⟨parameter, listed, inside⟩ := List.mem_flatMap.1 later
    have here := parameters type (liftDescriptor_eq_ok found) parameter listed
    dsimp only at inside
    split at inside
    · rcases List.mem_pair.1 inside with rfl | rfl
      · exact here
      · exact top
    · rwa [List.mem_singleton.1 inside]

end FrameState.Each

section Merging

variable {hierarchy : Hierarchy} {table : String → TypeMetadata} {good : VerificationType → Prop}
  (top : good .top)
  (merges : ∀ a b, good a → good b → Ensures hierarchy table (hierarchy.mergeTypes a b) good)
include top merges

theorem ensures_mergeSlots_each {slots others : List VerificationType}
    (left : ∀ type ∈ slots, good type) (right : ∀ type ∈ others, good type) :
    Ensures hierarchy table (hierarchy.mergeSlots slots others) fun merged =>
      ∀ type ∈ merged, good type := by
  induction slots generalizing others with
  | nil =>
    unfold Hierarchy.mergeSlots
    induction others with
    | nil =>
      rw [List.mapM_nil]
      exact .pure (by simp)
    | cons other rest ih =>
      rw [List.forall_mem_cons] at right
      rw [List.mapM_cons]
      refine .bind (merges _ _ top right.1) fun merged here => ?_
      refine .bind (ih right.2) fun later there => .pure ?_
      exact List.forall_mem_cons.2 ⟨here, there⟩
  | cons slot rest ih =>
    rw [List.forall_mem_cons] at left
    have first : good (others.head?.getD .top) := by
      cases others with
      | nil => exact top
      | cons other _ => exact right other List.mem_cons_self
    refine .bind (merges _ _ left.1 first) fun merged here => ?_
    refine .bind (ih left.2 fun type member => right type (List.mem_of_mem_tail member)) ?_
    exact fun later there => .pure (List.forall_mem_cons.2 ⟨here, there⟩)

theorem ensures_mergeStates_each {recorded incoming : FrameState} (left : recorded.Each good)
    (right : incoming.Each good) :
    Ensures hierarchy table (hierarchy.mergeStates recorded incoming) (FrameState.Each good) := by
  refine .bind (ensures_mergeSlots_each top merges left.locals right.locals) fun locals here => ?_
  refine .bind (ensures_mergeSlots_each top merges left.stack right.stack) fun stack there => ?_
  exact .pure ⟨here, there⟩

end Merging

end ClassRenaming
