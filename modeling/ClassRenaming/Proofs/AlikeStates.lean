import ClassRenaming.Frames.Execution
import ClassRenaming.Proofs.TypeOrder

/-!
States that differ only in how far they list local variables that hold `top`. An instruction does
the same to both, so it makes no difference when a merge lengthens the list of a recorded state.
-/

namespace ClassRenaming

open FrameState VerificationType

structure Alike (a b : FrameState) : Prop where
  stack : a.stack = b.stack
  locals : ∀ index, slotAt a.locals index = slotAt b.locals index

namespace Alike

theorem refl (state : FrameState) : Alike state state := ⟨rfl, fun _ => rfl⟩

theorem symm {a b : FrameState} (h : Alike a b) : Alike b a :=
  ⟨h.stack.symm, fun index => (h.locals index).symm⟩

theorem trans {a b c : FrameState} (first : Alike a b) (second : Alike b c) : Alike a c :=
  ⟨first.stack.trans second.stack, fun index => (first.locals index).trans (second.locals index)⟩

end Alike

theorem slotAt_extend (length : Nat) (slots : List VerificationType) (index : Nat) :
    slotAt (extend length slots) index = slotAt slots index := by
  simp only [slotAt, extend, List.getElem?_append, List.getElem?_replicate]
  split
  · rfl
  · next outside =>
    rw [List.getElem?_eq_none (by omega)]
    split <;> rfl

theorem length_extend (length : Nat) (slots : List VerificationType) :
    (extend length slots).length = max slots.length length := by
  simp only [extend, List.length_append, List.length_replicate]
  omega

theorem slotAt_set {slots : List VerificationType} {position : Nat} (inside : position < slots.length)
    (type : VerificationType) (index : Nat) :
    slotAt (slots.set position type) index = if index = position then type else slotAt slots index := by
  simp only [slotAt, List.getElem?_set]
  by_cases same : position = index
  · subst same
    simp [inside]
  · simp [same, Ne.symm same]

theorem slotAt_cutWide (position : Nat) (slots : List VerificationType) (index : Nat) :
    slotAt (cutWide position slots) index =
      if index + 1 = position ∧ (slotAt slots index).isWide then .top else slotAt slots index := by
  unfold cutWide
  split
  · next wide =>
    have inside : position - 1 < slots.length := by
      by_contra outside
      rw [List.getElem?_eq_none (by omega)] at wide
      simp [isWide] at wide
    rw [slotAt_set inside]
    by_cases here : index = position - 1
    · subst here
      have before : position - 1 + 1 = position := by omega
      have lost : (slotAt slots (position - 1)).isWide := wide.2
      simp [before, lost]
    · have elsewhere : index + 1 ≠ position := by omega
      simp [here, elsewhere]
  · next kept =>
    split
    · next cut =>
      exfalso
      apply kept
      refine ⟨by omega, ?_⟩
      have before : position - 1 = index := by omega
      rw [before]
      exact cut.2
    · rfl

theorem length_cutWide (position : Nat) (slots : List VerificationType) :
    (cutWide position slots).length = slots.length := by
  unfold cutWide
  split <;> simp

theorem slots_pos (type : VerificationType) : 1 ≤ type.slots := by
  unfold VerificationType.slots
  split <;> omega

theorem slotAt_setLocal (position : Nat) (type : VerificationType) (state : FrameState)
    (index : Nat) :
    slotAt (state.setLocal position type).locals index =
      if index = position then type
      else if type.isWide ∧ index = position + 1 then .top
      else if index + 1 = position ∧ (slotAt state.locals index).isWide then .top
      else slotAt state.locals index := by
  have long := length_extend (position + type.slots) state.locals
  have positive := slots_pos type
  have inside : position < (cutWide position (extend (position + type.slots) state.locals)).length := by
    rw [length_cutWide]
    omega
  unfold setLocal
  cases wide : type.isWide with
  | false =>
    simp only [Bool.false_eq_true, ↓reduceIte, false_and]
    rw [slotAt_set inside, slotAt_cutWide, slotAt_extend]
  | true =>
    have next : position + 1 < ((cutWide position
        (extend (position + type.slots) state.locals)).set position type).length := by
      rw [List.length_set, length_cutWide]
      simp only [VerificationType.slots, wide, if_true] at long ⊢
      omega
    simp only [↓reduceIte, true_and]
    rw [slotAt_set next, slotAt_set inside, slotAt_cutWide, slotAt_extend]
    by_cases second : index = position + 1
    · have other : index ≠ position := by omega
      simp [second]
    · simp [second]

theorem slotAt_map {f : VerificationType → VerificationType} (top : f .top = .top)
    (slots : List VerificationType) (index : Nat) :
    slotAt (slots.map f) index = f (slotAt slots index) := by
  simp only [slotAt, List.getElem?_map]
  cases slots[index]? <;> simp [top]

/-! Steps of an instruction. -/

/-- Two outcomes with related results, or with the same fault, which is one of the code and not that
the analysis had no steps left. -/
inductive Follows {α : Type} (related : α → α → Prop) : Outcome α → Outcome α → Prop where
  | ok {a b : α} : related a b → Follows related (.ok a) (.ok b)
  | error {fault : FrameFault} : fault ≠ .outOfSteps → Follows related (.error fault) (.error fault)

namespace Follows

variable {α β : Type} {related : α → α → Prop} {results : β → β → Prop}

theorem bind {first second : Outcome α} {f g : α → Outcome β}
    (h : Follows related first second) (next : ∀ a b, related a b → Follows results (f a) (g b)) :
    Follows results (first >>= f) (second >>= g) := by
  cases h with
  | ok same => exact next _ _ same
  | error kind => exact .error kind

theorem map {first second : Outcome α} {f g : α → β}
    (h : Follows related first second) (next : ∀ a b, related a b → results (f a) (g b)) :
    Follows results (f <$> first) (g <$> second) := by
  cases h with
  | ok same => exact .ok (next _ _ same)
  | error kind => exact .error kind

theorem exists_ok {first second : Outcome α} (h : Follows related first second) {a : α}
    (done : first = .ok a) : ∃ b, second = .ok b ∧ related a b := by
  cases h with
  | ok same =>
    cases done
    exact ⟨_, rfl, same⟩
  | error _ => cases done

theorem ne_outOfSteps {first second : Outcome α} (h : Follows related first second)
    {fault : FrameFault} (failed : first = .error fault) : fault ≠ .outOfSteps := by
  cases h with
  | ok _ => cases failed
  | error kind =>
    cases failed
    exact kind

theorem liftDescriptor (read : Except FormatError α) :
    Follows (· = ·) (ClassRenaming.liftDescriptor read) (ClassRenaming.liftDescriptor read) := by
  cases read with
  | ok value => exact .ok rfl
  | error cause => exact .error nofun

theorem ofConstant (constant : Constant) :
    Follows (· = ·) (VerificationType.ofConstant constant)
      (VerificationType.ofConstant constant) := by
  cases constant with
  | dynamic name descriptor bootstrap =>
    refine (liftDescriptor _).map ?_
    rintro type _ rfl
    rfl
  | _ => exact .ok rfl

theorem baseArray (code : UInt8) :
    Follows (· = ·) (VerificationType.baseArray code) (VerificationType.baseArray code) := by
  unfold VerificationType.baseArray
  split
  all_goals first | exact .ok rfl | exact .error nofun

theorem element (type : VerificationType) :
    Follows (· = ·) type.element type.element := by
  unfold VerificationType.element
  split
  · exact .ok rfl
  · split
    · refine (liftDescriptor _).map ?_
      rintro type _ rfl
      rfl
    · exact .error nofun
  · exact .error nofun

end Follows

namespace Alike

variable {a b : FrameState}

theorem push (h : Alike a b) (type : VerificationType) : Alike (a.push type) (b.push type) := by
  refine ⟨?_, h.locals⟩
  simp only [FrameState.push, h.stack]

theorem pop (h : Alike a b) :
    Follows (fun x y => x.1 = y.1 ∧ Alike x.2 y.2) a.pop b.pop := by
  unfold FrameState.pop
  rw [← h.stack]
  split
  · exact .ok ⟨rfl, rfl, h.locals⟩
  · exact .error nofun

theorem drop (h : Alike a b) (count : Nat) : Follows Alike (a.drop count) (b.drop count) := by
  unfold FrameState.drop
  rw [← h.stack]
  split
  · exact .error nofun
  · exact .ok ⟨rfl, h.locals⟩

theorem replace (h : Alike a b) (count : Nat) (result : VerificationType) :
    Follows Alike (a.replace count result) (b.replace count result) :=
  (h.drop count).map fun _ _ same => same.push result

theorem rearrange (h : Alike a b) (depth : Nat) (order : List Nat) :
    Follows Alike (a.rearrange depth order) (b.rearrange depth order) := by
  unfold FrameState.rearrange
  rw [← h.stack]
  split
  · exact .error nofun
  · exact .ok ⟨rfl, h.locals⟩

theorem load (h : Alike a b) (kind index : Nat) : Alike (a.load kind index) (b.load kind index) := by
  have same : a.localType index = b.localType index := h.locals index
  have reserved (length : Nat) : Alike (a.reserve length) (b.reserve length) := by
    refine ⟨h.stack, fun position => ?_⟩
    simp only [reserve, slotAt_extend, h.locals]
  simp only [FrameState.load, same]
  exact (reserved _).push _

theorem setLocal (h : Alike a b) (index : Nat) (type : VerificationType) :
    Alike (a.setLocal index type) (b.setLocal index type) := by
  refine ⟨h.stack, fun position => ?_⟩
  rw [slotAt_setLocal, slotAt_setLocal, h.locals]

theorem store (h : Alike a b) (kind index : Nat) :
    Follows Alike (a.store kind index) (b.store kind index) := by
  unfold FrameState.store
  split
  · exact (h.drop _).map fun _ _ same => same.setLocal index _
  · refine h.pop.bind ?_
    rintro ⟨type, x⟩ ⟨_, y⟩ ⟨rfl, same⟩
    exact .ok (same.setLocal index type)

theorem construct (h : Alike a b) {before : VerificationType} (kept : before ≠ .top)
    (after : VerificationType) : Alike (a.construct before after) (b.construct before after) := by
  refine ⟨by simp only [FrameState.construct, h.stack], fun index => ?_⟩
  have top : (if VerificationType.top = before then after else VerificationType.top) = .top :=
    if_neg (Ne.symm kept)
  have left := slotAt_map (f := fun type => if type = before then after else type) top a.locals index
  have right := slotAt_map (f := fun type => if type = before then after else type) top b.locals index
  refine left.trans (Eq.trans ?_ right.symm)
  rw [h.locals]

theorem ne_top_of_constructed? {owner name : String} {made : Nat → Option String}
    {receiver : VerificationType} (h : constructed? owner made receiver = .ok (some name)) :
    receiver ≠ .top := by
  rintro rfl
  cases h

theorem pushResult (h : Alike a b) (result : Option FieldType) :
    Alike (a.pushResult result) (b.pushResult result) := by
  cases result with
  | none => exact h
  | some type => exact h.push _

theorem ne_outOfSteps_of_constructed? {owner : String} {made : Nat → Option String}
    {receiver : VerificationType} {fault : FrameFault}
    (h : constructed? owner made receiver = .error fault) : fault ≠ .outOfSteps := by
  unfold constructed? at h
  split at h
  · cases h
  · split at h <;> cases h
    exact nofun
  · cases h

theorem takeReceiver (h : Alike a b) (owner : String) (made : Nat → Option String)
    (constructor : Bool) :
    Follows Alike (a.takeReceiver owner made constructor)
      (b.takeReceiver owner made constructor) := by
  unfold FrameState.takeReceiver
  refine h.pop.bind ?_
  rintro ⟨receiver, x⟩ ⟨_, y⟩ ⟨rfl, same⟩
  dsimp only at same ⊢
  split
  · cases made : constructed? owner made receiver with
    | error fault => exact .error (ne_outOfSteps_of_constructed? made)
    | ok name =>
      cases name with
      | none => exact .ok same
      | some name => exact .ok (same.construct (ne_top_of_constructed? made) _)
  · exact .ok same

theorem apply (h : Alike a b) (effect : Effect) :
    Follows Alike (a.apply effect) (b.apply effect) := by
  cases effect with
  | replace count result =>
    cases result with
    | none => exact h.drop count
    | some result => exact h.replace count result
  | load kind index => exact .ok (h.load kind index)
  | store kind index => exact h.store kind index
  | rearrange depth order => exact h.rearrange depth order
  | element =>
    refine (h.drop 1).bind fun x y same => ?_
    refine same.pop.bind ?_
    rintro ⟨array, x⟩ ⟨_, y⟩ ⟨rfl, same⟩
    refine (Follows.element array).bind ?_
    rintro element _ rfl
    exact .ok (same.push element)

theorem execute (h : Alike a b) (owner : String) (made : Nat → Option String) (placed : Placed) :
    Follows Alike (a.execute owner made placed) (b.execute owner made placed) := by
  unfold FrameState.execute
  cases placed.instruction with
  | simple opcode =>
    dsimp only
    split
    · exact h.apply _
    · exact .error nofun
  | push opcode value => exact .ok (h.push _)
  | load opcode constant =>
    refine (Follows.ofConstant constant).bind ?_
    rintro type _ rfl
    exact .ok (h.push type)
  | «local» opcode index wide =>
    dsimp only
    split_ifs
    · exact .ok (h.load _ _)
    · exact h.store _ _
    · exact .error nofun
  | increment index delta wide => exact .ok (h.setLocal _ _)
  | jump opcode target =>
    dsimp only
    split_ifs
    · exact .ok h
    · exact .error nofun
    · exact h.drop 2
    · exact h.drop 1
  | tableSwitch default low high targets => exact h.drop 1
  | lookupSwitch default pairs => exact h.drop 1
  | type opcode name =>
    dsimp only
    split_ifs
    · exact .ok (h.push _)
    · exact h.replace 1 _
    · exact h.replace 1 _
    · exact h.replace 1 _
  | field opcode member =>
    refine (Follows.liftDescriptor _).bind ?_
    rintro type _ rfl
    split_ifs
    · exact .ok (h.push _)
    · exact h.drop _
    · exact h.replace 1 _
    · exact h.drop _
  | method opcode member isInterface =>
    refine (Follows.liftDescriptor _).bind ?_
    rintro type _ rfl
    refine (h.drop _).bind fun x y same => ?_
    split_ifs
    · exact .ok (same.pushResult _)
    · exact (same.takeReceiver owner made _).bind fun x y same => .ok (same.pushResult _)
  | invokeDynamic name descriptor bootstrap =>
    refine (Follows.liftDescriptor _).bind ?_
    rintro type _ rfl
    refine (h.drop _).bind fun x y same => ?_
    exact .ok (same.pushResult _)
  | newArray code =>
    refine (h.drop 1).bind fun x y same => ?_
    refine (Follows.baseArray code).bind ?_
    rintro type _ rfl
    exact .ok (same.push type)
  | multiArray name dimensions => exact h.replace _ _

end Alike

end ClassRenaming
