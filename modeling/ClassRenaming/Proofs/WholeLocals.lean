import ClassRenaming.Proofs.AnalysisSteps
import ClassRenaming.Proofs.TypesInStates
import Mathlib.Data.List.DropRight

/-!
Long and double values in local variables. Local variables change in few ways, and none of them parts
the two slots of a value: a store into one of them loses the other, a constructor never makes a value
of two slots, and where two states meet a type of two slots is left only if both have it. So the
entries of a frame, one for a value, say all of the local variables.
-/

namespace ClassRenaming

open FrameState VerificationType

/-- Behind every long or double there is its second slot. -/
def Whole (slots : List VerificationType) : Prop :=
  ∀ index type, slots[index]? = some type → type.isWide → slots[index + 1]? = some .top

namespace Whole

theorem iff_slotAt {slots : List VerificationType} :
    Whole slots ↔ ∀ index, (slotAt slots index).isWide →
      index + 1 < slots.length ∧ slotAt slots (index + 1) = .top := by
  constructor
  · intro whole index wide
    cases here : slots[index]? with
    | none =>
      rw [slotAt, here] at wide
      cases wide
    | some type =>
      rw [slotAt, here] at wide
      have next := whole index type here wide
      exact ⟨(List.getElem?_eq_some_iff.1 next).1, by rw [slotAt, next]; rfl⟩
  · intro behind index type here wide
    have first : slotAt slots index = type := by rw [slotAt, here]; rfl
    obtain ⟨inside, top⟩ := behind index (first ▸ wide)
    rw [slotAt, List.getElem?_eq_getElem inside] at top
    rw [List.getElem?_eq_getElem inside]
    exact congrArg some top

variable {slots : List VerificationType}

theorem nil : Whole [] := fun _ _ here => by cases here

theorem tail {first : VerificationType} (whole : Whole (first :: slots)) : Whole slots :=
  fun index type here wide => whole (index + 1) type here wide

theorem cons {first : VerificationType} (narrow : first.isWide = false) (whole : Whole slots) :
    Whole (first :: slots)
  | 0, type, here, wide => by
    cases here
    rw [narrow] at wide
    cases wide
  | index + 1, type, here, wide => whole index type here wide

theorem pair (first : VerificationType) (whole : Whole slots) : Whole (first :: .top :: slots)
  | 0, _, _, _ => rfl
  | index + 1, type, here, wide => whole.cons rfl index type here wide

end Whole

/-! What happens to local variables. -/

inductive Changes : List VerificationType → List VerificationType → Prop
  | keep (slots : List VerificationType) : Changes slots slots
  | extend (length : Nat) (slots : List VerificationType) : Changes slots (extend length slots)
  | set (index : Nat) (type : VerificationType) (state : FrameState) :
      Changes state.locals (state.setLocal index type).locals
  | construct {before : VerificationType} (begun : ¬ before.Constructed) (name : String)
      (state : FrameState) : Changes state.locals (state.construct before (.object name)).locals

namespace Whole

variable {slots after : List VerificationType}

theorem extend (whole : Whole slots) (length : Nat) : Whole (extend length slots) := by
  rw [iff_slotAt] at whole ⊢
  intro index wide
  rw [slotAt_extend] at wide ⊢
  obtain ⟨inside, top⟩ := whole index wide
  rw [length_extend]
  exact ⟨by omega, top⟩

/-- The value whose second slot is written goes, and so does one whose first slot becomes the second
one of the new value. -/
theorem setLocal {state : FrameState} (whole : Whole state.locals) (index : Nat)
    (type : VerificationType) : Whole (state.setLocal index type).locals := by
  rw [iff_slotAt] at whole ⊢
  intro slot wide
  rw [length_setLocal]
  rw [slotAt_setLocal] at wide
  split at wide
  · next here =>
    subst here
    have two : type.slots = 2 := if_pos wide
    refine ⟨by omega, ?_⟩
    rw [slotAt_setLocal, if_neg (by omega), if_pos ⟨wide, rfl⟩]
  · next elsewhere =>
    split at wide
    · cases wide
    · split at wide
      · cases wide
      · next kept =>
        obtain ⟨inside, top⟩ := whole slot wide
        have before : slot + 1 ≠ index := fun next => kept ⟨next, wide⟩
        refine ⟨by omega, ?_⟩
        rw [slotAt_setLocal, if_neg before, top]
        split_ifs <;> rfl

theorem construct {state : FrameState} (whole : Whole state.locals) {before : VerificationType}
    (begun : ¬ before.Constructed) (name : String) :
    Whole (state.construct before (.object name)).locals := by
  rw [iff_slotAt] at whole ⊢
  intro index wide
  have filled : (.top : VerificationType) ≠ before := by
    rintro rfl
    exact begun trivial
  have entries (slot : Nat) : slotAt (state.construct before (.object name)).locals slot =
      if slotAt state.locals slot = before then .object name else slotAt state.locals slot := by
    refine slotAt_map ?_ state.locals slot
    exact if_neg filled
  rw [entries] at wide ⊢
  split at wide
  · cases wide
  · obtain ⟨inside, top⟩ := whole index wide
    rw [top, if_neg filled]
    exact ⟨by simpa [FrameState.construct] using inside, rfl⟩

theorem changes (whole : Whole slots) (changes : Changes slots after) : Whole after := by
  cases changes with
  | keep => exact whole
  | extend length => exact whole.extend length
  | set index type state => exact whole.setLocal index type
  | construct begun name state => exact whole.construct begun name

end Whole

namespace FrameState

variable {state after : FrameState}

theorem locals_pop {type : VerificationType} (done : state.pop = .ok (type, after)) :
    after.locals = state.locals := by
  unfold FrameState.pop at done
  split at done <;> cases done
  rfl

theorem locals_drop {count : Nat} (done : state.drop count = .ok after) :
    after.locals = state.locals := by
  unfold FrameState.drop at done
  split at done <;> cases done
  rfl

theorem locals_replace {count : Nat} {type : VerificationType}
    (done : state.replace count type = .ok after) : after.locals = state.locals := by
  obtain ⟨middle, dropped, rfl⟩ := Except.map_eq_ok.1 done
  exact (locals_push _ _).trans (locals_drop dropped)

theorem locals_rearrange {depth : Nat} {order : List Nat}
    (done : state.rearrange depth order = .ok after) : after.locals = state.locals := by
  unfold FrameState.rearrange at done
  split at done <;> cases done
  rfl

theorem locals_pushResult (result : Option FieldType) (state : FrameState) :
    (state.pushResult result).locals = state.locals := by
  cases result <;> rfl

theorem changes_load (kind index : Nat) (state : FrameState) :
    Changes state.locals (state.load kind index).locals := .extend _ _

theorem changes_store {kind index : Nat} (done : state.store kind index = .ok after) :
    Changes state.locals after.locals := by
  unfold FrameState.store at done
  split at done
  · next type _ =>
    obtain ⟨middle, dropped, rfl⟩ := Except.map_eq_ok.1 done
    rw [← locals_drop dropped]
    exact .set index type middle
  · obtain ⟨⟨type, middle⟩, popped, done⟩ := Except.bind_eq_ok.1 done
    cases done
    rw [← locals_pop popped]
    exact .set index type middle

theorem changes_apply {effect : Effect} (done : state.apply effect = .ok after) :
    Changes state.locals after.locals := by
  cases effect with
  | replace count result =>
    cases result with
    | none => exact locals_drop done ▸ .keep _
    | some type => exact locals_replace done ▸ .keep _
  | load kind index =>
    cases done
    exact changes_load kind index state
  | store kind index => exact changes_store done
  | rearrange depth order => exact locals_rearrange done ▸ .keep _
  | element =>
    obtain ⟨middle, dropped, done⟩ := Except.bind_eq_ok.1 done
    obtain ⟨⟨array, rest⟩, popped, done⟩ := Except.bind_eq_ok.1 done
    obtain ⟨type, -, done⟩ := Except.bind_eq_ok.1 done
    cases done
    rw [locals_push, locals_pop popped, locals_drop dropped]
    exact .keep _

theorem begun_of_constructed? {owner name : String} {made : Nat → Option String}
    {receiver : VerificationType} (found : constructed? owner made receiver = .ok (some name)) :
    ¬ receiver.Constructed := by
  cases receiver with
  | uninitializedThis | uninitialized => exact id
  | _ => cases found

theorem changes_takeReceiver {owner : String} {made : Nat → Option String} {constructor : Bool}
    (done : state.takeReceiver owner made constructor = .ok after) :
    Changes state.locals after.locals := by
  obtain ⟨⟨receiver, rest⟩, popped, done⟩ := Except.bind_eq_ok.1 done
  rw [← locals_pop popped]
  dsimp only at done
  split at done
  · obtain ⟨found, whose, done⟩ := Except.bind_eq_ok.1 done
    cases found with
    | none =>
      cases done
      exact .keep _
    | some name =>
      cases done
      exact .construct (begun_of_constructed? whose) name rest
  · cases done
    exact .keep _

theorem changes_execute {owner : String} {made : Nat → Option String} {placed : Placed}
    (done : state.execute owner made placed = .ok after) : Changes state.locals after.locals := by
  obtain ⟨offset, instruction⟩ := placed
  cases instruction with
  | simple opcode =>
    simp only [FrameState.execute] at done
    split at done
    · exact changes_apply done
    · cases done
  | push opcode value =>
    cases done
    exact .keep _
  | load opcode constant =>
    obtain ⟨type, -, done⟩ := Except.bind_eq_ok.1 done
    cases done
    exact .keep _
  | «local» opcode index wide =>
    simp only [FrameState.execute] at done
    split at done
    · cases done
      exact changes_load _ _ state
    · split at done
      · exact changes_store done
      · cases done
  | increment index delta wide =>
    cases done
    exact .set _ _ state
  | jump opcode target =>
    simp only [FrameState.execute] at done
    split at done
    · cases done
      exact .keep _
    · split at done
      · cases done
      · split at done <;> exact locals_drop done ▸ .keep _
  | tableSwitch | lookupSwitch =>
    have dropped : state.drop 1 = .ok after := done
    exact locals_drop dropped ▸ .keep _
  | type opcode name =>
    simp only [FrameState.execute] at done
    split at done
    · cases done
      exact .keep _
    · split at done
      · exact locals_replace done ▸ .keep _
      · split at done <;> exact locals_replace done ▸ .keep _
  | field opcode member =>
    obtain ⟨type, -, done⟩ := Except.bind_eq_ok.1 done
    split at done
    · cases done
      exact .keep _
    · split at done
      · exact locals_drop done ▸ .keep _
      · split at done
        · exact locals_replace done ▸ .keep _
        · exact locals_drop done ▸ .keep _
  | method opcode member isInterface =>
    obtain ⟨type, -, done⟩ := Except.bind_eq_ok.1 done
    obtain ⟨middle, dropped, done⟩ := Except.bind_eq_ok.1 done
    dsimp only at done
    rw [← locals_drop dropped]
    split at done
    · cases done
      exact locals_pushResult _ _ ▸ .keep _
    · obtain ⟨rest, taken, done⟩ := Except.bind_eq_ok.1 done
      cases done
      rw [locals_pushResult]
      exact changes_takeReceiver taken
  | invokeDynamic name descriptor bootstrap =>
    obtain ⟨type, -, done⟩ := Except.bind_eq_ok.1 done
    obtain ⟨middle, dropped, done⟩ := Except.bind_eq_ok.1 done
    cases done
    rw [locals_pushResult, locals_drop dropped]
    exact .keep _
  | newArray code =>
    obtain ⟨middle, dropped, done⟩ := Except.bind_eq_ok.1 done
    obtain ⟨type, -, done⟩ := Except.bind_eq_ok.1 done
    cases done
    rw [locals_push, locals_drop dropped]
    exact .keep _
  | multiArray name dimensions => exact locals_replace done ▸ .keep _

/-! Where values come in, and where they meet. -/

theorem narrow_receiver (owner : String) (member : Member) :
    (receiver owner member).isWide = false := by
  unfold receiver
  split <;> rfl

theorem whole_ofParameters (types : List FieldType) : Whole (ofParameters types) := by
  induction types with
  | nil => exact .nil
  | cons type rest ih =>
    rw [ofParameters, List.flatMap_cons]
    dsimp only
    split
    · exact ih.pair _
    · next narrow => exact ih.cons (by simpa using narrow)

theorem whole_onEntry {owner : String} {member : Member} {entry : FrameState}
    (done : onEntry owner member = .ok entry) : Whole entry.locals := by
  obtain ⟨type, -, done⟩ := Except.bind_eq_ok.1 done
  cases done
  have parameters := whole_ofParameters type.parameters
  dsimp only
  split
  · exact parameters
  · exact parameters.cons (narrow_receiver owner member)

end FrameState

theorem ensures_mergeTypes_wide {hierarchy : Hierarchy} {table : String → TypeMetadata}
    (a b : VerificationType) :
    Ensures hierarchy table (hierarchy.mergeTypes a b) fun merged =>
      (merged.isWide → a = merged ∧ b = merged) ∧ (a = .top → b = .top → merged = .top) := by
  unfold Hierarchy.mergeTypes
  split
  · next same => exact .pure ⟨fun _ => ⟨rfl, same.symm⟩, fun top _ => top⟩
  · split
    · exact .pure ⟨nofun, nofun⟩
    · exact .pure ⟨nofun, nofun⟩
    · exact (ensures_mergeReferences _ _).bind fun name _ => .pure ⟨nofun, nofun⟩
    · exact .pure ⟨nofun, fun _ _ => rfl⟩

theorem whole_mergeStates {recorded incoming : FrameState} (hierarchy : Hierarchy)
    (cache : MetadataCache) (left : Whole recorded.locals) (right : Whole incoming.locals) :
    Whole (hierarchy.mergeStates recorded incoming cache).1.locals := by
  have merges : Ensures hierarchy (hierarchy.view cache) (hierarchy.mergeStates recorded incoming)
      fun merged => Whole merged.locals := by
    refine .bind (ensures_slotAt_mergeSlots ⟨nofun, fun _ _ => rfl⟩ ensures_mergeTypes_wide _ _) ?_
    rintro locals ⟨length, slots⟩
    refine (ensures_mergeSlots recorded.stack incoming.stack).bind fun stack _ => .pure ?_
    rw [Whole.iff_slotAt] at left right ⊢
    intro index wide
    obtain ⟨here, there⟩ := (slots index).1 wide
    obtain ⟨inside, first⟩ := left index (here ▸ wide)
    obtain ⟨-, second⟩ := right index (there ▸ wide)
    refine ⟨?_, (slots (index + 1)).2 first second⟩
    change index + 1 < locals.length
    omega
  exact (merges cache rfl).1

def slotsOf (entries : List VerificationType) : List VerificationType :=
  entries.flatMap fun type => if type.isWide then [type, .top] else [type]

theorem slotsOf_wide {type : VerificationType} (wide : type.isWide) (rest : List VerificationType) :
    slotsOf (type :: rest) = type :: .top :: slotsOf rest := by
  rw [slotsOf, List.flatMap_cons, if_pos wide]
  rfl

theorem slotsOf_narrow {type : VerificationType} (narrow : ¬ type.isWide)
    (rest : List VerificationType) : slotsOf (type :: rest) = type :: slotsOf rest := by
  rw [slotsOf, List.flatMap_cons, if_neg narrow]
  rfl

theorem slotsOf_entries {slots : List VerificationType} (whole : Whole slots) :
    slotsOf (entries slots) = slots := by
  fun_induction entries slots with
  | case1 => rfl
  | case2 type =>
    refine slotsOf_narrow (fun wide => ?_) []
    cases whole 0 type rfl wide
  | case3 type next rest wide ih =>
    cases whole 0 type rfl wide
    rw [slotsOf_wide wide, ih whole.tail.tail]
  | case4 type next rest narrow ih =>
    rw [slotsOf_narrow narrow, ih whole.tail]

theorem slotsOf_tops (count : Nat) :
    slotsOf (List.replicate count .top) = List.replicate count .top := by
  have narrow : ¬ (VerificationType.top).isWide := nofun
  induction count with
  | zero => rfl
  | succ count ih => rw [List.replicate_succ, slotsOf_narrow narrow, ih]

theorem slotsOf_localEntries {state : FrameState} (whole : Whole state.locals) :
    ∃ count, state.locals = slotsOf state.localEntries ++ List.replicate count .top := by
  have tops : (entries state.locals).rtakeWhile (· == .top) =
      List.replicate ((entries state.locals).rtakeWhile (· == .top)).length .top := by
    refine List.eq_replicate_iff.2 ⟨rfl, fun type member => ?_⟩
    simpa using List.mem_rtakeWhile_imp member
  refine ⟨((entries state.locals).rtakeWhile (· == .top)).length, ?_⟩
  calc state.locals = slotsOf (entries state.locals) := (slotsOf_entries whole).symm
    _ = slotsOf (state.localEntries ++ (entries state.locals).rtakeWhile (· == .top)) := by
        exact congrArg slotsOf List.rdropWhile_append_rtakeWhile.symm
    _ = slotsOf state.localEntries ++ slotsOf ((entries state.locals).rtakeWhile (· == .top)) :=
        List.flatMap_append
    _ = _ := by rw [tops, slotsOf_tops, List.length_replicate]

namespace Flow

variable {context : FrameContext} {body : Body}

def Point.Whole (point : Point) : Prop := ∀ state, point.Holds state → ClassRenaming.Whole state.locals

theorem Step.whole {before after : Point} (step : Step context body before after)
    (whole : before.Whole) : after.Whole := by
  intro state held
  rcases step.holds held with old | ⟨position, placed, entry, -, at_, done⟩ |
    ⟨recorded, incoming, cache, left, right, rfl⟩ | ⟨handler, other, old, rfl⟩
  · exact whole state old
  · exact (whole entry (.inl ⟨position, at_⟩)).changes (changes_execute done)
  · exact whole_mergeStates _ cache (whole recorded left) (whole incoming right)
  · exact whole other old

theorem Steps.whole {first last : Point} (steps : Steps context body first last)
    (whole : first.Whole) : last.Whole := by
  induction steps with
  | refl => exact whole
  | tail _ step ih => exact step.whole ih

theorem whole_start {entry : FrameState} (whole : ClassRenaming.Whole entry.locals)
    (cache : MetadataCache) : Point.Whole ⟨.start body entry, cache, 0, []⟩ := by
  rintro state (⟨position, at_⟩ | ⟨errand, listed, -⟩)
  · rw [(pending_of_stateAt?_start at_).1]
    exact whole
  · cases listed

end Flow

/-- No state of an analysis, at any time, has half a long or double in its local variables, and the
entries of a frame say all of them. -/
theorem Code.Passes.whole_locals {context : FrameContext} {member : Member} {code : Code}
    {cache : MetadataCache} {point : Flow.Point} (passes : code.Passes context member cache point)
    {state : FrameState} (held : point.Holds state) :
    Whole state.locals ∧
      ∃ count, state.locals = slotsOf state.localEntries ++ List.replicate count .top := by
  obtain ⟨entry, onEntry, steps⟩ := passes
  have whole : Whole state.locals :=
    steps.whole (Flow.whole_start (whole_onEntry onEntry) cache) state held
  exact ⟨whole, slotsOf_localEntries whole⟩

/-- In a loop a double is written over the second slot of a long, and a long over the first slot of
that double. -/
def overlappingBody : Code where
  maxStack := 2
  maxLocals := 3
  instructions := [⟨0, .simple 0x09⟩, ⟨1, .simple 0x3F⟩, ⟨2, .simple 0x0E⟩, ⟨3, .simple 0x48⟩,
    ⟨4, .simple 0x09⟩, ⟨5, .simple 0x3F⟩, ⟨6, .jump Opcode.goto 2⟩]
  length := 9
  handlers := []
  attributes := []

theorem overlappingBody_whole : ∃ flow after offset state,
    overlappingBody.Passes ⟨⟨.empty, none⟩, "Main"⟩ ⟨0x0008, "run", "()V", []⟩ .empty
      ⟨flow, after, offset, []⟩ ∧
    Flow.Point.Holds ⟨flow, after, offset, []⟩ state ∧ state.locals = [.long, .top, .top] ∧
    Whole state.locals ∧
      ∃ count, state.locals = slotsOf state.localEntries ++ List.replicate count .top := by
  have ended : ∃ flow after,
      overlappingBody.analyze ⟨⟨.empty, none⟩, "Main"⟩ ⟨0x0008, "run", "()V", []⟩ 20 .empty =
        (.ok (⟨[], []⟩, flow), after) ∧
      flow.stateAt? 2 = some ⟨[.long, .top, .top], []⟩ := ⟨_, _, rfl, rfl⟩
  obtain ⟨flow, after, ended, at_⟩ := ended
  obtain ⟨offset, passes⟩ := Code.passes_of_analyze ended
  have held : Flow.Point.Holds ⟨flow, after, offset, []⟩ ⟨[.long, .top, .top], []⟩ := .inl ⟨2, at_⟩
  exact ⟨flow, after, offset, _, passes, held, rfl, passes.whole_locals held⟩

end ClassRenaming
