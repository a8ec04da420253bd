import ClassRenaming.Proofs.RelabeledTypes

/-!
Instructions on states with new names. What an instruction does depends on the kinds of the types that
it finds and on whether two names are the same, so with new names in the instruction and in the
state it comes to the same with new names in it, or fails as well.
-/

namespace ClassRenaming

open FrameState VerificationType

/-! Instructions with new names. -/

section Instructions

variable (f : Relabeling)

def MemberRef.relabel (member : MemberRef) : MemberRef :=
  { member with owner := f.name member.owner, descriptor := f.descriptor member.descriptor }

def MethodHandle.relabel (handle : MethodHandle) : MethodHandle :=
  { handle with member := handle.member.relabel f }

mutual

def Constant.relabel : Constant → Constant
  | .classRef name => .classRef (f.name name)
  | .methodType descriptor => .methodType (f.descriptor descriptor)
  | .methodHandle handle => .methodHandle (handle.relabel f)
  | .dynamic name descriptor ⟨method, arguments⟩ =>
    .dynamic name (f.descriptor descriptor) ⟨method.relabel f, Constant.relabelList arguments⟩
  | .integer value => .integer value
  | .float bits => .float bits
  | .long value => .long value
  | .double bits => .double bits
  | .string text => .string text

def Constant.relabelList : List Constant → List Constant
  | [] => []
  | first :: rest => first.relabel :: Constant.relabelList rest

end

def relabelBootstrap (bootstrap : BootstrapMethod) : BootstrapMethod :=
  ⟨bootstrap.method.relabel f, Constant.relabelList f bootstrap.arguments⟩

def Instruction.relabel : Instruction → Instruction
  | .type opcode name => .type opcode (f.name name)
  | .multiArray name dimensions => .multiArray (f.name name) dimensions
  | .field opcode member => .field opcode (member.relabel f)
  | .method opcode member isInterface => .method opcode (member.relabel f) isInterface
  | .load opcode constant => .load opcode (constant.relabel f)
  | .invokeDynamic name descriptor bootstrap =>
    .invokeDynamic name (f.descriptor descriptor) (relabelBootstrap f bootstrap)
  | other => other

def Placed.relabel (placed : Placed) : Placed :=
  { placed with instruction := placed.instruction.relabel f }

end Instructions

def Instruction.WellNamed : Instruction → Prop
  | .type opcode name =>
    ClassRenaming.WellNamed name ∧ (opcode = Opcode.anewarray → ProperCore name)
  | .multiArray name _ => ClassRenaming.WellNamed name
  | _ => True

/-! States with new names. -/

def FrameState.relabel (f : Relabeling) (state : FrameState) : FrameState where
  locals := state.locals.map (VerificationType.relabel f)
  stack := state.stack.map (VerificationType.relabel f)

theorem FrameState.relabel_injective (f : Relabeling) : Function.Injective (FrameState.relabel f) := by
  have slots := List.map_injective_iff.2 (VerificationType.relabel_injective f)
  rintro ⟨locals, stack⟩ ⟨others, more⟩ same
  obtain ⟨here, there⟩ := FrameState.mk.inj same
  rw [FrameState.mk.injEq]
  exact ⟨slots here, slots there⟩

structure FrameState.Becomes (f : Relabeling) (state other : FrameState) : Prop where
  relabeled : other = state.relabel f
  named : state.Named WellNamed

section Types

variable {f : Relabeling}

theorem echoes_liftDescriptor {α β : Type} {related : α → β → Prop} {read : Except FormatError α}
    {other : Except FormatError β} (h : Echoes related read other) :
    Echoes related (liftDescriptor read) (liftDescriptor other) := by
  cases h with
  | ok both => exact .ok both
  | error _ => exact .error trivial

theorem echoes_ofConstant (constant : Constant) :
    Echoes (VerificationType.Becomes f) (ofConstant constant) (ofConstant (constant.relabel f)) := by
  cases constant with
  | dynamic name descriptor bootstrap =>
    obtain ⟨method, arguments⟩ := bootstrap
    apply (echoes_liftDescriptor (fieldType_descriptor f descriptor)).map
    rintro type _ ⟨rfl, proper⟩
    exact .ofFieldType proper
  | integer | float | long | double => exact .ok (.self nofun)
  | string | classRef | methodType | methodHandle => exact .ok (.fixed (by decide))

theorem echoes_baseArray (code : UInt8) :
    Echoes (VerificationType.Becomes f) (baseArray code) (baseArray code) := by
  have base (type : BaseType) (array : String) (same : (FieldType.array (.base type)).render = array) :
      (VerificationType.object array).Becomes f (.object array) := by
    have proper : (FieldType.array (.base type)).Proper := trivial
    have becomes := Becomes.ofFieldType (f := f) proper
    rwa [FieldType.relabel, FieldType.relabel, VerificationType.ofFieldType, same] at becomes
  unfold baseArray
  split
  · exact .ok (base .boolean _ rfl)
  · exact .ok (base .char _ rfl)
  · exact .ok (base .float _ rfl)
  · exact .ok (base .double _ rfl)
  · exact .ok (base .byte _ rfl)
  · exact .ok (base .short _ rfl)
  · exact .ok (base .int _ rfl)
  · exact .ok (base .long _ rfl)
  · exact .error trivial

theorem startsWith_bracket_iff (name : String) : name.startsWith "[" = true ↔ ¬ IsPlain name := by
  rw [String.startsWith_string_iff, not_isPlain_iff]
  constructor
  · rintro ⟨rest, chars⟩
    exact ⟨rest, chars.symm⟩
  · rintro ⟨rest, chars⟩
    exact ⟨rest, chars.symm⟩

theorem becomes_arrayOf {name : String} (core : ProperCore name) :
    (arrayOf name).Becomes f (arrayOf (f.name name)) := by
  unfold arrayOf
  by_cases plain : IsPlain name
  · have still : IsPlain (f.name name) := isPlain_name_iff.2 plain
    have first : ¬ name.startsWith "[" = true := by rwa [startsWith_bracket_iff, not_not]
    have second : ¬ (f.name name).startsWith "[" = true := by rwa [startsWith_bracket_iff, not_not]
    have array (element : String) : "[L" ++ element ++ ";" = arrayName 1 element := by
      apply String.toList_inj.1
      simp [arrayName]
    rw [if_neg first, if_neg second, array, array, ← name_array Nat.one_ne_zero]
    exact .object (.inr ((properCore_array Nat.one_ne_zero).2 core))
  · have still : ¬ IsPlain (f.name name) := fun other => plain (isPlain_name_iff.1 other)
    rw [if_pos ((startsWith_bracket_iff _).2 plain), if_pos ((startsWith_bracket_iff _).2 still),
      ← name_bracket plain]
    exact .object (.inr (properCore_bracket plain core))

theorem element_plain {name : String} (plain : IsPlain name) :
    (VerificationType.object name).element = .error (.notAnArray (.object name)) := by
  unfold element
  split
  · next same => cases same
  · next found same =>
    cases same
    split
    · next rest array => exact absurd plain (not_isPlain_iff.2 ⟨rest, array⟩)
    · rfl
  · next other => exact absurd rfl (other name)

theorem element_array {name : String} {rest : List Char} (array : name.toList = '[' :: rest) :
    (VerificationType.object name).element =
      VerificationType.ofFieldType <$> liftDescriptor (Descriptor.fieldType (String.ofList rest)) := by
  rw [element, array]
  rfl

theorem echoes_element {type : VerificationType} (named : type.Named WellNamed) :
    Echoes (VerificationType.Becomes f) type.element (type.relabel f).element := by
  cases type with
  | null => exact .ok (.self nofun)
  | object name =>
    rw [VerificationType.relabel]
    by_cases plain : IsPlain name
    · rw [element_plain plain, element_plain (isPlain_name_iff.2 plain)]
      exact .error trivial
    · obtain ⟨rest, array⟩ := not_isPlain_iff.1 plain
      obtain ⟨behind, chars, echoes⟩ := fieldType_name f named array
      rw [element_array array, element_array chars]
      apply (echoes_liftDescriptor echoes).map
      rintro type _ ⟨rfl, proper⟩
      exact .ofFieldType proper
  | _ => exact .error trivial

end Types

namespace FrameState.Becomes

variable {f : Relabeling} {state other : FrameState} {type result : VerificationType}

theorem push (h : state.Becomes f other) (here : type.Becomes f result) :
    (state.push type).Becomes f (other.push result) := by
  obtain ⟨rfl, named⟩ := h
  obtain ⟨rfl, also⟩ := here
  refine ⟨?_, named.push also⟩
  unfold FrameState.push
  rw [isWide_relabel]
  split <;> rfl

theorem pop (h : state.Becomes f other) :
    Echoes (fun a b => a.1.Becomes f b.1 ∧ a.2.Becomes f b.2) state.pop other.pop := by
  obtain ⟨rfl, named⟩ := h
  obtain ⟨locals, stack⟩ := state
  cases stack with
  | nil => exact .error trivial
  | cons type rest =>
    obtain ⟨here, there⟩ := named.pop rfl
    exact .ok ⟨⟨rfl, here⟩, ⟨rfl, there⟩⟩

theorem echoes {first second : Outcome FrameState} (same : second = FrameState.relabel f <$> first)
    (named : ∀ after, first = .ok after → after.Named WellNamed) :
    Echoes (FrameState.Becomes f) first second := by
  rw [same]
  cases first with
  | error fault => exact .error trivial
  | ok after => exact .ok ⟨rfl, named after rfl⟩

theorem drop (h : state.Becomes f other) (count : Nat) :
    Echoes (FrameState.Becomes f) (state.drop count) (other.drop count) := by
  obtain ⟨rfl, named⟩ := h
  apply echoes ?_ fun after done => named.drop done
  unfold FrameState.drop
  rw [FrameState.relabel, List.length_map, ← List.map_drop]
  split <;> rfl

theorem replace (h : state.Becomes f other) (count : Nat) (here : type.Becomes f result) :
    Echoes (FrameState.Becomes f) (state.replace count type) (other.replace count result) :=
  (h.drop count).map fun _ _ both => both.push here

theorem getD_map (slots : List VerificationType) (index : Nat) :
    ((slots.map (VerificationType.relabel f))[index]?).getD .top =
      (slots[index]?.getD .top).relabel f := by
  rw [List.getElem?_map]
  cases slots[index]? <;> rfl

theorem rearrange (h : state.Becomes f other) (depth : Nat) (order : List Nat) :
    Echoes (FrameState.Becomes f) (state.rearrange depth order) (other.rearrange depth order) := by
  obtain ⟨rfl, named⟩ := h
  apply echoes ?_ fun after done => named.rearrange done
  unfold FrameState.rearrange
  simp only [FrameState.relabel, List.length_map, ← List.map_drop, getD_map]
  split
  · rfl
  · simp only [Functor.map, Except.map, FrameState.relabel, List.map_append, List.map_map]
    rfl

theorem extend_map (length : Nat) (slots : List VerificationType) :
    extend length (slots.map (VerificationType.relabel f)) =
      (extend length slots).map (VerificationType.relabel f) := by
  simp only [extend, List.map_append, List.map_replicate, List.length_map]
  rfl

theorem reserve_relabel (length : Nat) (state : FrameState) :
    (state.relabel f).reserve length = (state.reserve length).relabel f := by
  simp only [reserve, FrameState.relabel, extend_map]

theorem reserve (h : state.Becomes f other) (length : Nat) :
    (state.reserve length).Becomes f (other.reserve length) := by
  obtain ⟨rfl, named⟩ := h
  exact ⟨reserve_relabel length state, named.reserve length⟩

theorem cutWide_map (index : Nat) (slots : List VerificationType) :
    cutWide index (slots.map (VerificationType.relabel f)) =
      (cutWide index slots).map (VerificationType.relabel f) := by
  unfold cutWide
  rw [getD_map, isWide_relabel]
  split
  · rw [List.map_set]
    rfl
  · rfl

theorem setLocal (h : state.Becomes f other) (here : type.Becomes f result) (index : Nat) :
    (state.setLocal index type).Becomes f (other.setLocal index result) := by
  obtain ⟨rfl, named⟩ := h
  obtain ⟨rfl, also⟩ := here
  refine ⟨?_, named.setLocal also index⟩
  unfold FrameState.setLocal
  simp only [FrameState.relabel, extend_map, slots_relabel, cutWide_map, isWide_relabel]
  split
  · rw [List.map_set, List.map_set]
    rfl
  · rw [List.map_set]

theorem localType (h : state.Becomes f other) (index : Nat) :
    (state.localType index).Becomes f (other.localType index) := by
  obtain ⟨rfl, named⟩ := h
  exact ⟨getD_map _ _, FrameState.Each.getD trivial named.locals index⟩

theorem kindType {kind : Nat} (known : kindType? kind = some type) : type.Becomes f type := by
  unfold kindType? at known
  split at known <;> cases known <;> exact .self nofun

theorem load (h : state.Becomes f other) (kind index : Nat) :
    (state.load kind index).Becomes f (other.load kind index) := by
  have loaded : ((kindType? kind).getD (state.localType index)).Becomes f
      ((kindType? kind).getD (other.localType index)) := by
    cases known : kindType? kind with
    | some type => exact kindType known
    | none => exact h.localType index
  have slots : ((kindType? kind).getD (other.localType index)).slots =
      ((kindType? kind).getD (state.localType index)).slots := by
    rw [loaded.relabeled, slots_relabel]
  unfold FrameState.load
  dsimp only
  rw [slots]
  exact (h.reserve _).push loaded

theorem store (h : state.Becomes f other) (kind index : Nat) :
    Echoes (FrameState.Becomes f) (state.store kind index) (other.store kind index) := by
  unfold FrameState.store
  split
  · next type known => exact (h.drop _).map fun _ _ both => both.setLocal (kindType known) index
  · apply h.pop.bind
    rintro ⟨type, after⟩ ⟨result, behind⟩ ⟨here, there⟩
    exact .ok (there.setLocal here index)

theorem construct (h : state.Becomes f other) {before : VerificationType}
    (plain : ∀ name, before ≠ .object name) (here : type.Becomes f result) :
    (state.construct before type).Becomes f (other.construct before result) := by
  obtain ⟨rfl, named⟩ := h
  obtain ⟨rfl, also⟩ := here
  refine ⟨?_, named.construct also⟩
  have still : before.relabel f = before := (Becomes.self plain).relabeled.symm
  have each (slot : VerificationType) : (if slot.relabel f = before then type.relabel f
      else slot.relabel f) = (if slot = before then type else slot).relabel f := by
    by_cases same : slot = before
    · rw [if_pos same, if_pos (by rw [same, still])]
    · have differ : slot.relabel f ≠ before := by
        intro equal
        rw [← still] at equal
        exact same (VerificationType.relabel_injective f equal)
      rw [if_neg same, if_neg differ]
  simp only [FrameState.construct, FrameState.relabel, List.map_map, Function.comp_def, each]

theorem pushResult (h : state.Becomes f other) {returned : Option FieldType}
    (proper : ∀ type ∈ returned, type.Proper) :
    (state.pushResult returned).Becomes f (other.pushResult (returned.map (FieldType.relabel f))) := by
  cases returned with
  | none => exact h
  | some type => exact h.push (.ofFieldType (proper type rfl))

variable {owner : String} {made : Nat → Option String}

theorem echoes_constructed (own : WellNamed owner)
    (makes : ∀ offset name, made offset = some name → WellNamed name) (receiver : VerificationType) :
    Echoes (fun found after => after = found.map f.name ∧ ∀ name ∈ found, WellNamed name ∧
        ∀ other, receiver ≠ .object other)
      (constructed? owner made receiver)
      (constructed? (f.name owner) (fun offset => (made offset).map f.name) (receiver.relabel f)) := by
  cases receiver with
  | uninitializedThis =>
    refine .ok ⟨rfl, ?_⟩
    rintro name ⟨⟩
    exact ⟨own, nofun⟩
  | uninitialized offset =>
    unfold constructed? VerificationType.relabel
    dsimp only
    cases known : made offset with
    | none => exact .error trivial
    | some name =>
      refine .ok ⟨rfl, ?_⟩
      rintro _ ⟨⟩
      exact ⟨makes offset name known, nofun⟩
  | _ => exact .ok ⟨rfl, nofun⟩

theorem takeReceiver (h : state.Becomes f other) (own : WellNamed owner)
    (makes : ∀ offset name, made offset = some name → WellNamed name) (constructor : Bool) :
    Echoes (FrameState.Becomes f) (state.takeReceiver owner made constructor)
      (other.takeReceiver (f.name owner) (fun offset => (made offset).map f.name) constructor) := by
  unfold FrameState.takeReceiver
  apply h.pop.bind
  rintro ⟨receiver, after⟩ ⟨_, behind⟩ ⟨⟨rfl, -⟩, rest⟩
  dsimp only
  split
  · apply (echoes_constructed own makes receiver).bind
    rintro found _ ⟨rfl, each⟩
    cases found with
    | none => exact .ok rest
    | some name =>
      obtain ⟨named, plain⟩ := each name rfl
      have still : receiver.relabel f = receiver := (Becomes.self plain).relabeled.symm
      dsimp only [Option.map]
      rw [still]
      exact .ok (rest.construct plain (.object named))
  · exact .ok rest

theorem result_ne_object {opcode : UInt8} {slots : Nat} {result : VerificationType}
    (known : Effect.ofOpcode? opcode = some (.replace slots (some result))) (name : String) :
    result ≠ .object name := by
  rintro rfl
  cases Effect.plain_result known

theorem apply (h : state.Becomes f other) {opcode : UInt8} {effect : Effect}
    (known : Effect.ofOpcode? opcode = some effect) :
    Echoes (FrameState.Becomes f) (state.apply effect) (other.apply effect) := by
  cases effect with
  | replace count result =>
    cases result with
    | none => exact h.drop count
    | some type => exact h.replace count (.self (result_ne_object known))
  | load kind index => exact .ok (h.load kind index)
  | store kind index => exact h.store kind index
  | rearrange depth order => exact h.rearrange depth order
  | element =>
    apply (h.drop 1).bind
    intro after behind both
    apply both.pop.bind
    rintro ⟨array, rest⟩ ⟨_, others⟩ ⟨⟨rfl, named⟩, there⟩
    apply (echoes_element named).bind
    intro type result here
    exact .ok (there.push here)

theorem execute (h : state.Becomes f other) (own : WellNamed owner)
    (makes : ∀ offset name, made offset = some name → WellNamed name) (placed : Placed)
    (operands : placed.instruction.WellNamed) :
    Echoes (FrameState.Becomes f) (state.execute owner made placed)
      (other.execute (f.name owner) (fun offset => (made offset).map f.name) (placed.relabel f)) := by
  obtain ⟨offset, instruction⟩ := placed
  cases instruction with
  | simple opcode =>
    unfold FrameState.execute
    dsimp only [Placed.relabel, Instruction.relabel]
    split
    · next effect known => exact h.apply known
    · exact .error trivial
  | push opcode value => exact .ok (h.push (.self nofun))
  | load opcode constant =>
    apply (echoes_ofConstant constant).bind
    intro type result here
    exact .ok (h.push here)
  | «local» opcode index wide =>
    unfold FrameState.execute
    dsimp only [Placed.relabel, Instruction.relabel]
    split_ifs
    · exact .ok (h.load _ _)
    · exact h.store _ _
    · exact .error trivial
  | increment index delta wide =>
    have integer : VerificationType.integer.Becomes f .integer := .self nofun
    exact .ok (h.setLocal integer _)
  | jump opcode target =>
    unfold FrameState.execute
    dsimp only [Placed.relabel, Instruction.relabel]
    split_ifs
    · exact .ok h
    · exact .error trivial
    · exact h.drop 2
    · exact h.drop 1
  | tableSwitch default low high targets => exact h.drop 1
  | lookupSwitch default pairs => exact h.drop 1
  | type opcode name =>
    obtain ⟨named, core⟩ := operands
    unfold FrameState.execute
    dsimp only [Placed.relabel, Instruction.relabel]
    split_ifs with new array
    · exact .ok (h.push (.self nofun))
    · exact h.replace 1 (becomes_arrayOf (core array))
    · exact h.replace 1 (.object named)
    · exact h.replace 1 (.self nofun)
  | field opcode member =>
    apply (echoes_liftDescriptor (fieldType_descriptor f member.descriptor)).bind
    rintro type _ ⟨rfl, proper⟩
    have value : (VerificationType.ofFieldType type).Becomes f _ := .ofFieldType proper
    rw [FieldType.slots_relabel]
    split_ifs
    · exact .ok (h.push value)
    · exact h.drop _
    · exact h.replace 1 value
    · exact h.drop _
  | method opcode member isInterface =>
    apply (echoes_liftDescriptor (methodType_descriptor f member.descriptor)).bind
    rintro type _ ⟨rfl, proper⟩
    rw [MethodType.parameterSlots_relabel]
    apply (h.drop _).bind
    intro after behind both
    split_ifs
    · exact .ok (both.pushResult proper.result)
    · apply (both.takeReceiver own makes _).bind
      intro rest others there
      exact .ok (there.pushResult proper.result)
  | invokeDynamic name descriptor bootstrap =>
    apply (echoes_liftDescriptor (methodType_descriptor f descriptor)).bind
    rintro type _ ⟨rfl, proper⟩
    rw [MethodType.parameterSlots_relabel]
    apply (h.drop _).bind
    intro after behind both
    exact .ok (both.pushResult proper.result)
  | newArray code =>
    apply (h.drop 1).bind
    intro after behind both
    apply (echoes_baseArray code).bind
    intro type result here
    exact .ok (both.push here)
  | multiArray name dimensions => exact h.replace _ (.object operands)

end FrameState.Becomes

end ClassRenaming
