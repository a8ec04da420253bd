import ClassRenaming.ClassFile.Writing
import ClassRenaming.Proofs.Retelling

/-!
Writing the same thing again. In a pool that came of writing it, everything is found at the index
that it was given the first time, so the bytes are the same and the pool stays as it is. What is
written has texts that a map leaves alone, and then the texts that the pool grows by are such too.
-/

namespace ClassRenaming

theorem findIdx?_of_front {α : Type} {before after : List α} {p : α → Bool} {index : Nat}
    (front : before <+: after) (found : before.findIdx? p = some index) :
    after.findIdx? p = some index := by
  obtain ⟨more, rfl⟩ := front
  rw [List.findIdx?_append, found, Option.some_or]

theorem findIdx?_of_missing {α : Type} {before : List α} (more : List α) {p : α → Bool} {item : α}
    (missing : before.findIdx? p = none) (good : p item = true) :
    (before ++ item :: more).findIdx? p = some before.length := by
  simp [List.findIdx?_append, List.findIdx?_cons, missing, good]

theorem option_map_eq_self {α : Type} {f : α → α} {value : α} {item : Option α}
    (kept : item.map f = item) (here : item = some value) : f value = value := by
  rw [here] at kept
  exact Option.some.inj kept

def PoolEntry.holdsText (text : String) (wanted : Bool) : PoolEntry → Bool
  | utf8 found _ exact => exact == wanted && found == text
  | _ => false

namespace ConstantPool

theorem findText?_eq (pool : ConstantPool) (text : String) : pool.findText? text =
    ((pool.entries.toList.findIdx? (PoolEntry.holdsText text true)).or
      (pool.entries.toList.findIdx? (PoolEntry.holdsText text false))).map Nat.toUInt16 := rfl

/-- The pool grows by entries and rows at its end. No text is found anywhere else than before, and
the map leaves every new one alone. -/
structure Extends (f : String → String) (before after : ConstantPool) : Prop where
  entries : before.entries.toList <+: after.entries.toList
  rows : before.bootstrap.toList <+: after.bootstrap.toList
  texts : ∀ ⦃text index⦄, before.findText? text = some index → after.findText? text = some index
  fresh : ∀ ⦃text stored exact⦄, .utf8 text stored exact ∈ after.entries.toList →
    .utf8 text stored exact ∈ before.entries.toList ∨
      before.findText? text = none ∧ f text = text ∧ stored = ModifiedUtf8.encode text ∧ exact = true

section Extends

variable {f : String → String} {before after : ConstantPool}

theorem Extends.refl (pool : ConstantPool) : Extends f pool pool :=
  ⟨List.prefix_rfl, List.prefix_rfl, fun _ _ found => found, fun _ _ _ => .inl⟩

theorem Extends.trans {last : ConstantPool} (first : Extends f before after)
    (second : Extends f after last) : Extends f before last := by
  refine ⟨first.entries.trans second.entries, first.rows.trans second.rows,
    fun text index found => second.texts (first.texts found), fun text stored exact member => ?_⟩
  rcases second.fresh member with old | ⟨missing, others⟩
  · exact first.fresh old
  · refine .inr ⟨?_, others⟩
    cases found : before.findText? text with
    | none => rfl
    | some index =>
      rw [first.texts found] at missing
      cases missing

theorem Extends.antisymm (there : Extends f before after) (back : Extends f after before) :
    before = after := by
  have entries := there.entries.eq_of_length_le back.entries.length_le
  have rows := there.rows.eq_of_length_le back.rows.length_le
  obtain ⟨oldEntries, oldRows⟩ := before
  obtain ⟨newEntries, newRows⟩ := after
  obtain rfl : oldEntries = newEntries := Array.toList_inj.1 entries
  obtain rfl : oldRows = newRows := Array.toList_inj.1 rows
  rfl

theorem extends_append {pool next : ConstantPool} {entry : PoolEntry} {index : UInt16}
    (new : ∀ text stored exact, entry = .utf8 text stored exact → pool.findText? text = none ∧
      f text = text ∧ stored = ModifiedUtf8.encode text ∧ exact = true)
    (done : pool.append entry = .ok (index, next)) :
    pool.Extends f next ∧ index = pool.entries.toList.length.toUInt16 ∧
      ∃ more, next.entries.toList = pool.entries.toList ++ entry :: more := by
  obtain ⟨more, unused, behind⟩ : ∃ more, (∀ item ∈ more, item = .unusable) ∧
      (if entry.isWide then (pool.entries.push entry).push .unusable else pool.entries.push entry) =
        (pool.entries.toList ++ entry :: more).toArray := by
    cases entry.isWide with
    | false => exact ⟨[], by simp, by simp [← Array.toList_inj]⟩
    | true => exact ⟨[.unusable], by simp, by simp [← Array.toList_inj]⟩
  simp only [append, behind] at done
  split at done
  · cases done
  cases done
  refine ⟨⟨List.prefix_append _ _, List.prefix_rfl, fun text position found => ?_,
    fun text stored exact member => ?_⟩, by simp, more, rfl⟩
  · rw [findText?_eq] at found ⊢
    obtain ⟨place, here, rfl⟩ := Option.map_eq_some_iff.1 found
    rcases Option.or_eq_some_iff.1 here with here | ⟨missing, here⟩
    · rw [findIdx?_of_front (List.prefix_append _ _) here]
      rfl
    · -- an entry that is new is no second entry of a text that was found
      have still : (pool.entries.toList ++ entry :: more).findIdx? (PoolEntry.holdsText text true) =
          none := by
        refine List.findIdx?_eq_none_iff.2 fun item member => ?_
        rcases List.mem_append.1 member with old | behind
        · exact List.findIdx?_eq_none_iff.1 missing item old
        rcases List.mem_cons.1 behind with rfl | last
        · cases item with
          | utf8 other stored exact =>
            have absent := (new _ _ _ rfl).1
            simp only [PoolEntry.holdsText, Bool.and_eq_false_iff, beq_eq_false_iff_ne]
            refine .inr fun same => ?_
            rw [findText?_eq, Option.map_eq_none_iff, Option.or_eq_none_iff, same, here] at absent
            cases absent.2
          | _ => rfl
        · rw [unused item last]
          rfl
      rw [still, findIdx?_of_front (List.prefix_append _ _) here]
      rfl
  · rcases List.mem_append.1 member with old | behind
    · exact .inl old
    · rcases List.mem_cons.1 behind with rfl | last
      · exact .inr (new _ _ _ rfl)
      · cases unused _ last

end Extends

end ConstantPool

/-- An action that gives the same again, and adds nothing, in every pool that came of it. -/
def Repeats (f : String → String) {α : Type} (action : Interning α) : Prop :=
  ∀ ⦃pool : ConstantPool⦄ ⦃value : α⦄ ⦃next : ConstantPool⦄, action pool = .ok (value, next) →
    pool.Extends f next ∧
      ∀ ⦃final : ConstantPool⦄, next.Extends f final → action final = .ok (value, final)

namespace Repeats

open Reader (bind_eq_ok pure_eq_ok lift_eq_ok)

variable {f : String → String} {α β : Type} {action : Interning α}

theorem pure (value : α) : Repeats f (pure value) := by
  intro pool found next done
  obtain ⟨rfl, rfl⟩ := pure_eq_ok.1 done
  exact ⟨.refl pool, fun final _ => rfl⟩

theorem lift (action : Except FormatError α) : Repeats f (liftM action) := by
  intro pool found next done
  obtain ⟨here, rfl⟩ := lift_eq_ok.1 done
  exact ⟨.refl pool, fun final _ => lift_eq_ok.2 ⟨here, rfl⟩⟩

theorem throw (cause : FormatError) : Repeats f (throw cause : Interning α) := by
  intro pool found next done
  cases done

theorem bind {next : α → Interning β} (first : Repeats f action)
    (later : ∀ value, Repeats f (next value)) : Repeats f (action >>= next) := by
  intro pool found last done
  obtain ⟨value, middle, here, there⟩ := bind_eq_ok.1 done
  obtain ⟨grows, again⟩ := first here
  obtain ⟨more, anew⟩ := later value there
  exact ⟨grows.trans more, fun final far =>
    bind_eq_ok.2 ⟨value, final, again (more.trans far), anew far⟩⟩

theorem map {g : α → β} (first : Repeats f action) : Repeats f (g <$> action) := by
  rw [← bind_pure_comp]
  exact first.bind fun value => .pure _

theorem mapM {ι : Type} {step : ι → Interning α} {items : List ι}
    (each : ∀ item ∈ items, Repeats f (step item)) : Repeats f (items.mapM step) := by
  induction items with
  | nil =>
    rw [List.mapM_nil]
    exact .pure []
  | cons item items ih =>
    rw [List.mapM_cons]
    refine (each item (by simp)).bind fun value => ?_
    exact (ih fun item member => each item (by simp [member])).bind fun values => .pure _

theorem table {write : α → Interning Bytes} {items : List α}
    (each : ∀ item ∈ items, Repeats f (write item)) : Repeats f (writeTable write items) :=
  (lift _).bind fun _ => (mapM each).bind fun _ => .pure _

theorem each {ι : Type} {step : ι → Interning α} {items : List ι}
    (repeats : ∀ item ∈ items, Repeats f (step item)) {pool final : ConstantPool} {values : List α}
    (done : items.mapM step pool = .ok (values, final)) :
    List.Forall₂ (fun item value => step item final = .ok (value, final)) items values := by
  induction items generalizing pool values with
  | nil =>
    rw [List.mapM_nil] at done
    obtain ⟨rfl, -⟩ := pure_eq_ok.1 done
    exact .nil
  | cons item items ih =>
    have later := fun other member => repeats other (List.mem_cons_of_mem item member)
    rw [List.mapM_cons] at done
    obtain ⟨value, middle, here, done⟩ := bind_eq_ok.1 done
    obtain ⟨others, last, there, done⟩ := bind_eq_ok.1 done
    obtain ⟨rfl, rfl⟩ := pure_eq_ok.1 done
    have more := (mapM later there).1
    exact .cons ((repeats item List.mem_cons_self here).2 more) (ih later there)

end Repeats

theorem mapM_settled {ι α : Type} {step : ι → Interning α} {pool : ConstantPool} {items : List ι}
    {values : List α}
    (each : List.Forall₂ (fun item value => step item pool = .ok (value, pool)) items values) :
    items.mapM step pool = .ok (values, pool) := by
  induction each with
  | nil => rfl
  | cons first _ ih =>
    rw [List.mapM_cons]
    exact Reader.bind_eq_ok.2 ⟨_, _, first, Reader.bind_eq_ok.2 ⟨_, _, ih, rfl⟩⟩

section Writing

variable {f : String → String}

/-! Entries, texts and rows. -/

theorem repeats_entry {entry : PoolEntry} (plain : entry.Plain) :
    Repeats f (Interning.entry entry) := by
  intro pool index next done
  unfold Interning.entry at done
  split at done
  case h_1 found here =>
    cases done
    obtain ⟨place, there, rfl⟩ := Option.map_eq_some_iff.1 here
    refine ⟨.refl pool, fun final far => ?_⟩
    rw [Interning.entry, ConstantPool.find?, findIdx?_of_front far.entries there]
    rfl
  case h_2 missing =>
    have noText : ∀ text stored exact, entry = .utf8 text stored exact →
        pool.findText? text = none ∧ f text = text ∧ stored = ModifiedUtf8.encode text ∧
          exact = true := by
      rintro text stored exact rfl
      exact plain.elim
    obtain ⟨grows, rfl, more, entries⟩ := ConstantPool.extends_append noText done
    refine ⟨grows, fun final far => ?_⟩
    have here := findIdx?_of_missing more (Option.map_eq_none_iff.1 missing)
      (beq_self_eq_true entry)
    rw [← entries] at here
    rw [Interning.entry, ConstantPool.find?, findIdx?_of_front far.entries here]
    rfl

theorem repeats_utf8 {text : String} (kept : f text = text) : Repeats f (Interning.utf8 text) := by
  intro pool index next done
  unfold Interning.utf8 at done
  split at done
  case h_1 found here =>
    cases done
    refine ⟨.refl pool, fun final far => ?_⟩
    rw [Interning.utf8, far.texts here]
  case h_2 missing =>
    dsimp only at done
    split at done
    · cases done
    have new : ∀ other stored exact,
        PoolEntry.utf8 text (ModifiedUtf8.encode text) true = .utf8 other stored exact →
          pool.findText? other = none ∧ f other = other ∧ stored = ModifiedUtf8.encode other ∧
            exact = true := by
      rintro _ _ _ ⟨⟩
      exact ⟨missing, kept, rfl, rfl⟩
    obtain ⟨grows, rfl, more, entries⟩ := ConstantPool.extends_append new done
    refine ⟨grows, fun final far => ?_⟩
    have apart := Option.or_eq_none_iff.1 (Option.map_eq_none_iff.1 missing)
    have here : next.findText? text = some pool.entries.toList.length.toUInt16 := by
      rw [ConstantPool.findText?, entries, findIdx?_of_missing more apart.1 (by simp), Option.some_or]
      rfl
    rw [Interning.utf8, far.texts here]

theorem repeats_bootstrapRow (row : BootstrapEntry) : Repeats f (Interning.bootstrapRow row) := by
  intro pool index next done
  unfold Interning.bootstrapRow at done
  split at done
  case h_1 place here =>
    cases done
    refine ⟨.refl pool, fun final far => ?_⟩
    rw [Interning.bootstrapRow, findIdx?_of_front far.rows here]
  case h_2 missing =>
    split at done
    · cases done
    cases done
    refine ⟨⟨List.prefix_rfl, by simp, fun _ _ found => found, fun _ _ _ => .inl⟩,
      fun final far => ?_⟩
    have here := findIdx?_of_missing [] missing (beq_self_eq_true row)
    have rows := far.rows
    rw [Array.toList_push] at rows
    rw [Interning.bootstrapRow, findIdx?_of_front rows here]
    simp

theorem repeats_className {name : String} (kept : f name = name) :
    Repeats f (Interning.className name) :=
  (repeats_utf8 kept).bind fun _ => repeats_entry (by exact trivial)

theorem repeats_className? {name : Option String} (kept : name.map f = name) :
    Repeats f (className? name) := by
  cases name with
  | none => exact .pure 0
  | some name => exact repeats_className (Option.some.inj kept)

theorem repeats_nameAndType {name descriptor : String} (named : f name = name)
    (typed : f descriptor = descriptor) : Repeats f (Interning.nameAndType name descriptor) :=
  (repeats_utf8 named).bind fun _ => (repeats_utf8 typed).bind fun _ =>
    repeats_entry (by exact trivial)

section Members

variable {member : MemberRef} (kept : member.mapTexts (.all f) = member)

include kept

theorem repeats_memberParts : Repeats f (Interning.memberParts member) := by
  obtain ⟨owner, name, descriptor⟩ := member
  obtain ⟨owned, named, typed⟩ := MemberRef.mk.inj kept
  exact (repeats_className owned).bind fun _ => (repeats_nameAndType named typed).bind fun _ =>
    .pure _

theorem repeats_fieldRef : Repeats f (Interning.fieldRef member) :=
  (repeats_memberParts kept).bind fun _ => repeats_entry (by exact trivial)

theorem repeats_methodRef (isInterface : Bool) :
    Repeats f (Interning.methodRef member isInterface) := by
  refine (repeats_memberParts kept).bind fun parts => ?_
  cases isInterface with
  | false => exact repeats_entry (by exact trivial)
  | true => exact repeats_entry (by exact trivial)

end Members

theorem repeats_methodHandle {handle : MethodHandle} (kept : handle.mapTexts (.all f) = handle) :
    Repeats f (Interning.methodHandle handle) := by
  have member : handle.member.mapTexts (.all f) = handle.member :=
    congrArg MethodHandle.member kept
  unfold Interning.methodHandle
  split
  · exact (repeats_fieldRef member).bind fun _ => repeats_entry (by exact trivial)
  · exact (repeats_methodRef member _).bind fun _ => repeats_entry (by exact trivial)

mutual

theorem repeats_constant : ∀ constant : Constant, constant.mapTexts (.all f) = constant →
    Repeats f (Interning.constant constant)
  | .integer _, _ | .float _, _ | .long _, _ | .double _, _ => repeats_entry (by exact trivial)
  | .string text, kept =>
    (repeats_utf8 (Constant.string.inj kept)).bind fun _ => repeats_entry (by exact trivial)
  | .classRef name, kept => repeats_className (Constant.classRef.inj kept)
  | .methodType descriptor, kept =>
    (repeats_utf8 (Constant.methodType.inj kept)).bind fun _ => repeats_entry (by exact trivial)
  | .methodHandle handle, kept => repeats_methodHandle (Constant.methodHandle.inj kept)
  | .dynamic name descriptor ⟨method, arguments⟩, kept => by
    obtain ⟨named, typed, bootstrap⟩ := Constant.dynamic.inj kept
    obtain ⟨handled, inside⟩ := Bootstrap.mk.inj bootstrap
    refine (repeats_methodHandle handled).bind fun _ => ?_
    refine (repeats_constants arguments inside).bind fun _ => ?_
    refine (repeats_bootstrapRow _).bind fun _ => ?_
    exact (repeats_nameAndType named typed).bind fun _ => repeats_entry (by exact trivial)

theorem repeats_constants : ∀ constants : List Constant,
    Constant.mapTextsList (.all f) constants = constants → Repeats f (Interning.constants constants)
  | [], _ => .pure []
  | first :: rest, kept => by
    obtain ⟨head, tail⟩ := List.cons.inj kept
    exact (repeats_constant first head).bind fun _ => (repeats_constants rest tail).bind fun _ =>
      .pure _

end

theorem repeats_invokeDynamic {name descriptor : String} {bootstrap : BootstrapMethod}
    (named : f name = name) (typed : f descriptor = descriptor)
    (kept : mapBootstrapTexts (.all f) bootstrap = bootstrap) :
    Repeats f (Interning.invokeDynamic name descriptor bootstrap) := by
  obtain ⟨method, arguments⟩ := bootstrap
  obtain ⟨handled, inside⟩ := Bootstrap.mk.inj kept
  have row : Repeats f (Interning.bootstrapMethod ⟨method, arguments⟩) :=
    (repeats_methodHandle handled).bind fun _ => (repeats_constants arguments inside).bind fun _ =>
      repeats_bootstrapRow _
  exact row.bind fun _ => (repeats_nameAndType named typed).bind fun _ =>
    repeats_entry (by exact trivial)

mutual

theorem repeats_value : ∀ value : ElementValue, value.mapTexts (.all f) = value →
    Repeats f value.write
  | .byte _, _ | .char _, _ | .short _, _ | .int _, _ | .boolean _, _ | .long _, _ | .float _, _
  | .double _, _ => (repeats_entry (by exact trivial)).bind fun _ => .pure _
  | .string text, kept =>
    (repeats_utf8 (ElementValue.string.inj kept)).bind fun _ => .pure _
  | .enumConstant descriptor name, kept => by
    obtain ⟨typed, named⟩ := ElementValue.enumConstant.inj kept
    exact (repeats_utf8 typed).bind fun _ => (repeats_utf8 named).bind fun _ => .pure _
  | .classLiteral descriptor, kept =>
    (repeats_utf8 (ElementValue.classLiteral.inj kept)).bind fun _ => .pure _
  | .nested descriptor elements, kept => by
    obtain ⟨typed, inside⟩ := ElementValue.nested.inj kept
    exact (repeats_utf8 typed).bind fun _ => (Repeats.lift _).bind fun _ =>
      (repeats_elements elements inside).bind fun _ => .pure _
  | .array values, kept =>
    (Repeats.lift _).bind fun _ =>
      (repeats_values values (ElementValue.array.inj kept)).bind fun _ => .pure _

theorem repeats_elements : ∀ elements : List (String × ElementValue),
    ElementValue.mapTextsElements (.all f) elements = elements →
      Repeats f (ElementValue.writeElements elements)
  | [], _ => .pure []
  | (name, value) :: rest, kept => by
    obtain ⟨head, tail⟩ := List.cons.inj kept
    obtain ⟨named, valued⟩ := Prod.mk.inj head
    exact (repeats_utf8 named).bind fun _ => (repeats_value value valued).bind fun _ =>
      (repeats_elements rest tail).bind fun _ => .pure _

theorem repeats_values : ∀ values : List ElementValue,
    ElementValue.mapTextsList (.all f) values = values → Repeats f (ElementValue.writeValues values)
  | [], _ => .pure []
  | value :: rest, kept => by
    obtain ⟨head, tail⟩ := List.cons.inj kept
    exact (repeats_value value head).bind fun _ => (repeats_values rest tail).bind fun _ => .pure _

end

theorem Annotation.repeats_write {item : Annotation} (kept : item.mapTexts (.all f) = item) :
    Repeats f item.write := by
  obtain ⟨descriptor, elements⟩ := item
  obtain ⟨typed, inside⟩ := Annotation.mk.inj kept
  exact (repeats_utf8 typed).bind fun _ => (Repeats.lift _).bind fun _ =>
    (repeats_elements elements inside).bind fun _ => .pure _

theorem Annotation.repeats_writeTable {entries : List Annotation}
    (kept : entries.map (mapTexts (.all f)) = entries) : Repeats f (writeTable entries) :=
  (Repeats.lift _).bind fun _ => (Repeats.mapM fun item member =>
    repeats_write (map_eq_self_iff.1 kept item member)).bind fun _ => .pure _

section Moved

variable (move : Nat → Nat)

theorem TypeAnnotation.repeats_write {item : TypeAnnotation} (kept : item.mapTexts (.all f) = item) :
    Repeats f (item.write move) := by
  have inside : item.value.mapTexts (.all f) = item.value := congrArg TypeAnnotation.value kept
  refine (Repeats.lift _).bind fun _ => ?_
  split
  · exact .throw _
  · exact Annotation.repeats_write inside |>.bind fun _ => .pure _

theorem TypeAnnotation.repeats_writeTable {entries : List TypeAnnotation}
    (kept : entries.map (mapTexts (.all f)) = entries) : Repeats f (writeTable move entries) :=
  (Repeats.lift _).bind fun _ => (Repeats.mapM fun item member =>
    repeats_write move (map_eq_self_iff.1 kept item member)).bind fun _ => .pure _

theorem repeats_verificationType {type : VerificationType}
    (kept : type.mapTexts (.all f) = type) : Repeats f (type.write move) := by
  cases type with
  | object name =>
    exact (repeats_className (VerificationType.object.inj kept)).bind fun _ => .pure _
  | uninitialized offset =>
    change Repeats f (if move offset < 65536 then _ else _)
    split
    · exact .pure _
    · exact .throw _
  | _ => exact .pure _

theorem repeats_writeAll {types : List VerificationType}
    (kept : types.map (VerificationType.mapTexts (.all f)) = types) :
    Repeats f (VerificationType.writeAll move types) :=
  (Repeats.mapM fun type member =>
    repeats_verificationType move (map_eq_self_iff.1 kept type member)).map

theorem repeats_typeTable {types : List VerificationType}
    (kept : types.map (VerificationType.mapTexts (.all f)) = types) :
    Repeats f (VerificationType.writeTable move types) :=
  (Repeats.lift _).bind fun _ => (repeats_writeAll move kept).bind fun _ => .pure _

theorem repeats_frameKind (distance : Nat) {kind : FrameKind}
    (kept : kind.map (VerificationType.mapTexts (.all f)) = kind) :
    Repeats f (kind.write move distance) := by
  cases kind with
  | same =>
    change Repeats f (if distance < 64 then _ else _)
    split <;> exact .pure _
  | sameWithItem item =>
    refine (repeats_verificationType move (FrameKind.sameWithItem.inj kept)).bind fun _ => ?_
    split <;> exact .pure _
  | chop count => exact .pure _
  | append types =>
    exact (repeats_writeAll move (FrameKind.append.inj kept)).bind fun _ => .pure _
  | full locals stack =>
    obtain ⟨front, back⟩ := FrameKind.full.inj kept
    exact (repeats_typeTable move front).bind fun _ => (repeats_typeTable move back).bind fun _ =>
      .pure _

theorem repeats_frames (base : Nat) {frames : List Frame}
    (kept : frames.map (Frame.mapTexts (.all f)) = frames) :
    Repeats f (Frame.writeFrom move base frames) := by
  induction frames generalizing base with
  | nil => exact .pure []
  | cons frame rest ih =>
    obtain ⟨head, tail⟩ := List.cons.inj kept
    have kind : frame.kind.map (VerificationType.mapTexts (.all f)) = frame.kind :=
      congrArg Frame.kind head
    unfold Frame.writeFrom
    dsimp only
    split
    · exact .throw _
    split
    · exact .throw _
    exact (repeats_frameKind move _ kind).bind fun _ => (ih _ tail).bind fun _ => .pure _

theorem repeats_frameTable {frames : List Frame}
    (kept : frames.map (Frame.mapTexts (.all f)) = frames) :
    Repeats f (Frame.writeTable move frames) :=
  (Repeats.lift _).bind fun _ => (repeats_frames move 0 kept).bind fun _ => .pure _

theorem repeats_operand {instruction : Instruction}
    (kept : instruction.mapTexts (.all f) = instruction) : Repeats f instruction.operand := by
  cases instruction with
  | load opcode constant => exact (repeats_constant constant (Instruction.load.inj kept).2).map
  | type opcode name => exact (repeats_className (Instruction.type.inj kept).2).map
  | multiArray name dimensions => exact (repeats_className (Instruction.multiArray.inj kept).1).map
  | field opcode member => exact (repeats_fieldRef (Instruction.field.inj kept).2).map
  | method opcode member isInterface =>
    exact (repeats_methodRef (Instruction.method.inj kept).2.1 isInterface).map
  | invokeDynamic name descriptor bootstrap =>
    obtain ⟨named, typed, linked⟩ := Instruction.invokeDynamic.inj kept
    exact (repeats_invokeDynamic named typed linked).map
  | _ => exact .pure none

theorem repeats_operands {instructions : List Placed}
    (kept : instructions.map (Placed.mapTexts (.all f)) = instructions) :
    Repeats f (instructions.mapM (·.instruction.operand)) :=
  .mapM fun placed member =>
    repeats_operand (congrArg Placed.instruction (map_eq_self_iff.1 kept placed member))

theorem repeats_handler {handler : Handler} (kept : handler.mapTexts (.all f) = handler) :
    Repeats f (handler.write move) := by
  have caught : handler.catchType.map f = handler.catchType := congrArg Handler.catchType kept
  refine (Repeats.lift _).bind fun _ => (Repeats.lift _).bind fun _ => ?_
  refine (Repeats.lift _).bind fun _ => ?_
  cases here : handler.catchType with
  | none => exact .pure _
  | some name => exact (repeats_className (option_map_eq_self caught here)).bind fun _ => .pure _

theorem repeats_localVariable {entry : LocalVariable} (kept : entry.mapTexts f f = entry) :
    Repeats f (entry.write move) := by
  have named : f entry.name = entry.name := congrArg LocalVariable.name kept
  have typed : f entry.descriptor = entry.descriptor := congrArg LocalVariable.descriptor kept
  exact (Repeats.lift _).bind fun _ => (Repeats.lift _).bind fun _ =>
    (repeats_utf8 named).bind fun _ => (repeats_utf8 typed).bind fun _ => .pure _

theorem repeats_codeAttribute (keeps : KeepsKnown f) {item : CodeAttribute} (kept : item.mapTexts (.all f) = item) :
    Repeats f (item.write move) := by
  have isKnown : ∀ {name}, name ∈ CodeAttribute.known → f name = name := fun member =>
    keeps.known _ (List.mem_append_right _ member)
  have body : Repeats f (item.writeBody move) ∧ f item.name = item.name := by
    cases item with
    | stackMap frames =>
      exact ⟨repeats_frameTable move (CodeAttribute.stackMap.inj kept),
        isKnown (by simp [CodeAttribute.known, CodeAttribute.name])⟩
    | lineNumbers lines =>
      exact ⟨.table fun line _ => .lift _,
        isKnown (by simp [CodeAttribute.known, CodeAttribute.name])⟩
    | localVariables entries =>
      exact ⟨.table fun entry member => repeats_localVariable move
        (map_eq_self_iff.1 (CodeAttribute.localVariables.inj kept) entry member),
        isKnown (by simp [CodeAttribute.known, CodeAttribute.name])⟩
    | localVariableTypes entries =>
      exact ⟨.table fun entry member => repeats_localVariable move
        (map_eq_self_iff.1 (CodeAttribute.localVariableTypes.inj kept) entry member),
        isKnown (by simp [CodeAttribute.known, CodeAttribute.name])⟩
    | typeAnnotations visibility annotations =>
      have entries := TypeAnnotation.repeats_writeTable move (CodeAttribute.typeAnnotations.inj kept).2
      refine ⟨entries, isKnown ?_⟩
      cases visibility <;>
        simp [CodeAttribute.known, CodeAttribute.name, Visibility.typeAnnotationsName]
    | unknown name info => exact ⟨.pure info, (CodeAttribute.unknown.inj kept).1⟩
  exact body.1.bind fun _ => (repeats_utf8 body.2).bind fun _ => .lift _

theorem repeats_code (keeps : KeepsKnown f) {code : Code} (kept : code.mapTexts (.all f) = code) :
    Repeats f code.write := by
  have instructions : code.instructions.map (Placed.mapTexts (.all f)) = code.instructions :=
    congrArg Code.instructions kept
  have handlers : code.handlers.map (Handler.mapTexts (.all f)) = code.handlers :=
    congrArg Code.handlers kept
  have attributes : code.attributes.map (CodeAttribute.mapTexts (.all f)) = code.attributes :=
    congrArg Code.attributes kept
  refine (repeats_operands instructions).bind fun operands => (Repeats.lift _).bind fun layout => ?_
  refine (Repeats.lift _).bind fun bytecode => ?_
  refine (Repeats.table fun handler member => repeats_handler _
    (map_eq_self_iff.1 handlers handler member)).bind fun _ => ?_
  exact (Repeats.table fun item member => repeats_codeAttribute _ keeps
    (map_eq_self_iff.1 attributes item member)).bind fun _ => .pure _

end Moved

/-! Attributes, members and the class. -/

theorem repeats_classNames {names : List String} (kept : names.map f = names) :
    Repeats f (writeTable writeClassName names) :=
  .table fun name member =>
    (repeats_className (map_eq_self_iff.1 kept name member)).bind fun _ => .pure _

theorem repeats_innerClass {entry : InnerClass} (kept : entry.mapTexts (.all f) = entry) :
    Repeats f entry.write := by
  have inner : f entry.inner = entry.inner := congrArg InnerClass.inner kept
  have outer : entry.outer.map f = entry.outer := congrArg InnerClass.outer kept
  have named : entry.name.map f = entry.name := congrArg InnerClass.name kept
  refine (repeats_className inner).bind fun _ => (repeats_className? outer).bind fun _ => ?_
  cases here : entry.name with
  | none => exact .pure _
  | some name => exact (repeats_utf8 (option_map_eq_self named here)).bind fun _ => .pure _

theorem Attribute.name_kept (keeps : KeepsKnown f) {kind : Signature.Kind} {item : Attribute}
    (kept : item.mapTexts (.all f) kind = item) : f item.name = item.name := by
  have isKnown : ∀ {name}, name ∈ Attribute.known → f name = name := fun member =>
    keeps.known _ (List.mem_append_left _ member)
  cases item with
  | unknown name info => exact (Attribute.unknown.inj kept).1
  | annotations visibility _ =>
    cases visibility <;>
      exact isKnown (by simp [Attribute.known, Attribute.name, Visibility.annotationsName])
  | parameterAnnotations visibility _ =>
    cases visibility <;>
      exact isKnown (by simp [Attribute.known, Attribute.name, Visibility.parameterAnnotationsName])
  | typeAnnotations visibility _ =>
    cases visibility <;>
      exact isKnown (by simp [Attribute.known, Attribute.name, Visibility.typeAnnotationsName])
  | _ => exact isKnown (by simp [Attribute.known, Attribute.name])

theorem Attribute.mapTexts_constantValue (kind : Signature.Kind) (constant : Constant) :
    (constantValue constant).mapTexts (.all f) kind = constantValue (constant.mapTexts (.all f)) := by
  cases constant <;> rfl

mutual

theorem repeats_body (keeps : KeepsKnown f) (kind : Signature.Kind) : ∀ item : Attribute,
    item.mapTexts (.all f) kind = item → Repeats f item.writeBody
  | .signature text, kept => (repeats_utf8 (Attribute.signature.inj kept)).bind fun _ => .pure _
  | .constantValue constant, kept => by
    rw [Attribute.mapTexts_constantValue] at kept
    exact (repeats_constant constant (Attribute.constantValue.inj kept)).bind fun _ => .pure _
  | .exceptions _, kept => repeats_classNames (Attribute.exceptions.inj kept)
  | .nestMembers _, kept => repeats_classNames (Attribute.nestMembers.inj kept)
  | .permittedSubclasses _, kept => repeats_classNames (Attribute.permittedSubclasses.inj kept)
  | .annotations _ _, kept => Annotation.repeats_writeTable (Attribute.annotations.inj kept).2
  | .parameterAnnotations visibility parameters, kept => by
    have inside := map_eq_self_iff.1 (Attribute.parameterAnnotations.inj kept).2
    rw [Attribute.writeBody]
    split
    · exact .throw _
    · exact (Repeats.mapM fun entries member =>
        Annotation.repeats_writeTable (inside entries member)).bind fun _ => .pure _
  | .typeAnnotations _ _, kept =>
    TypeAnnotation.repeats_writeTable id (Attribute.typeAnnotations.inj kept).2
  | .annotationDefault value, kept => repeats_value value (Attribute.annotationDefault.inj kept)
  | .record components, kept => by
    rw [Attribute.writeBody]
    exact (Repeats.lift _).bind fun _ =>
      (repeats_components keeps components (Attribute.record.inj kept)).bind fun _ => .pure _
  | .innerClasses classes, kept =>
    .table fun entry member =>
      repeats_innerClass (map_eq_self_iff.1 (Attribute.innerClasses.inj kept) entry member)
  | .enclosingMethod owner none, kept =>
    (repeats_className (Attribute.enclosingMethod.inj kept).1).bind fun _ => .pure _
  | .enclosingMethod owner (some (name, descriptor)), kept => by
    obtain ⟨owned, method⟩ := Attribute.enclosingMethod.inj kept
    obtain ⟨named, typed⟩ := Prod.mk.inj (Option.some.inj method)
    exact (repeats_className owned).bind fun _ => (repeats_nameAndType named typed).bind fun _ =>
      .pure _
  | .nestHost name, kept =>
    (repeats_className (Attribute.nestHost.inj kept)).bind fun _ => .pure _
  | .code body, kept => repeats_code keeps (Attribute.code.inj kept)
  | .bootstrapMethods, _ => .throw _
  | .unknown _ info, _ => .pure info

theorem repeats_components (keeps : KeepsKnown f) : ∀ components : List (RecordComponent Attribute),
    Attribute.mapTextsComponents (.all f) components = components →
      Repeats f (Attribute.writeComponents components)
  | [], _ => .pure []
  | ⟨name, descriptor, attributes⟩ :: rest, kept => by
    obtain ⟨head, tail⟩ := List.cons.inj kept
    obtain ⟨named, typed, inside⟩ := RecordComponent.mk.inj head
    rw [Attribute.writeComponents]
    refine (repeats_utf8 named).bind fun _ => (repeats_utf8 typed).bind fun _ => ?_
    refine (Repeats.lift _).bind fun _ => (repeats_list keeps .field attributes inside).bind
      fun _ => ?_
    exact (repeats_components keeps rest tail).bind fun _ => .pure _

theorem repeats_list (keeps : KeepsKnown f) (kind : Signature.Kind) : ∀ attributes : List Attribute,
    Attribute.mapTextsList (.all f) kind attributes = attributes →
      Repeats f (Attribute.writeList attributes)
  | [], _ => .pure []
  | first :: rest, kept => by
    obtain ⟨head, tail⟩ := List.cons.inj kept
    rw [Attribute.writeList]
    refine (repeats_body keeps kind first head).bind fun _ => ?_
    refine (repeats_utf8 (Attribute.name_kept keeps head)).bind fun _ => ?_
    exact (Repeats.lift _).bind fun _ => (repeats_list keeps kind rest tail).bind fun _ => .pure _

end

theorem repeats_attributes (keeps : KeepsKnown f) (kind : Signature.Kind)
    {attributes : List Attribute}
    (kept : Attribute.mapTextsList (.all f) kind attributes = attributes) :
    Repeats f (Attribute.writeAll attributes) :=
  (Repeats.lift _).bind fun _ => (repeats_list keeps kind attributes kept).bind fun _ => .pure _

theorem repeats_member (keeps : KeepsKnown f) (kind : Signature.Kind) {member : Member}
    (kept : member.mapTexts (.all f) kind = member) : Repeats f member.write := by
  obtain ⟨access, name, descriptor, attributes⟩ := member
  obtain ⟨-, named, typed, inside⟩ := Member.mk.inj kept
  exact (repeats_utf8 named).bind fun _ => (repeats_utf8 typed).bind fun _ =>
    (repeats_attributes keeps kind inside).bind fun _ => .pure _

theorem repeats_members (keeps : KeepsKnown f) (kind : Signature.Kind) {members : List Member}
    (kept : members.map (Member.mapTexts (.all f) kind) = members) :
    Repeats f (writeTable Member.write members) :=
  .table fun member among => repeats_member keeps kind (map_eq_self_iff.1 kept member among)

theorem repeats_classAttribute (keeps : KeepsKnown f) (kind : Signature.Kind) {item : Attribute}
    (kept : item.mapTexts (.all f) kind = item) : Repeats f (writeClassAttribute item) := by
  unfold writeClassAttribute
  split
  · exact .pure none
  · exact (repeats_body keeps kind item kept).bind fun _ =>
      (repeats_utf8 (Attribute.name_kept keeps kept)).bind fun _ => .pure _

end Writing

end ClassRenaming
