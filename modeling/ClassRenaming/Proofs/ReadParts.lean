import ClassRenaming.Proofs.Gives
import ClassRenaming.Proofs.StoredFrames
import ClassRenaming.Proofs.StoredInstructions

/-!
Constants, annotations, frames and instructions that were read are of the kind that is read back once
they are written: what is read has the form that goes with the opcode or tag in front of it.
-/

namespace ClassRenaming

open Reader

theorem Constant.listNesting_le_iff {depth : Nat} {constants : List Constant} :
    Constant.listNesting constants ≤ depth ↔ ∀ constant ∈ constants, constant.nesting ≤ depth := by
  induction constants with
  | nil => simp [Constant.listNesting]
  | cons first rest ih =>
    rw [Constant.listNesting, Nat.max_le, ih]
    simp

namespace ConstantPool

/-- How deep dynamic constants can nest: without a row for a bootstrap method there are none. -/
def depth (pool : ConstantPool) : Nat := if pool.bootstrap = #[] then 0 else dynamicDepth

variable {pool : ConstantPool}

theorem depth_le : pool.depth ≤ dynamicDepth := by
  unfold depth
  split <;> omega

theorem bootstrap_of_depth (zero : pool.depth = 0) : pool.bootstrap = #[] := by
  by_contra some
  rw [depth, if_neg some] at zero
  cases zero

theorem bootstrapMethod_eq_ok {argument : UInt16 → Except FormatError Constant} {row : UInt16}
    {bootstrap : BootstrapMethod} (done : pool.bootstrapMethod argument row = .ok bootstrap) :
    pool.depth = dynamicDepth ∧
      ∀ constant ∈ bootstrap.arguments, ∃ index, argument index = .ok constant := by
  unfold bootstrapMethod at done
  split at done
  · cases done
  case h_2 entry found =>
    obtain ⟨method, -, done⟩ := Except.bind_eq_ok.1 done
    obtain ⟨arguments, each, done⟩ := Except.bind_eq_ok.1 done
    cases done
    constructor
    · refine if_neg fun empty => ?_
      simp [empty] at found
    · intro constant member
      obtain ⟨index, -, here⟩ := Except.exists_of_mem_mapM each member
      exact ⟨index, here⟩

theorem constantWithin_eq_ok {limit : Nat} {index : UInt16} {constant : Constant}
    (done : pool.constantWithin limit index = .ok constant) :
    constant.nesting = 0 ∨ ∃ shorter name descriptor bootstrap row, limit = shorter + 1 ∧
      constant = .dynamic name descriptor bootstrap ∧
        pool.bootstrapMethod (pool.constantWithin shorter) row = .ok bootstrap := by
  rw [constantWithin] at done
  obtain ⟨entry, -, done⟩ := Except.bind_eq_ok.1 done
  split at done
  case h_9 row nameType =>
    cases limit with
    | zero => cases done
    | succ shorter =>
      obtain ⟨⟨name, descriptor⟩, -, done⟩ := Except.bind_eq_ok.1 done
      obtain ⟨bootstrap, found, done⟩ := Except.bind_eq_ok.1 done
      cases done
      exact .inr ⟨shorter, name, descriptor, bootstrap, row, rfl, rfl, found⟩
  case h_10 => cases done
  all_goals
    left
    first
    | cases done
      rfl
    | obtain ⟨part, -, done⟩ := Except.bind_eq_ok.1 done
      cases done
      rfl

theorem nesting_of_constantWithin {limit : Nat} {index : UInt16} {constant : Constant}
    (done : pool.constantWithin limit index = .ok constant) :
    constant.nesting ≤ limit ∧ (pool.depth = dynamicDepth ∨ constant.nesting = 0) := by
  induction limit generalizing index constant with
  | zero =>
    obtain zero | ⟨shorter, _, _, _, _, zero, -⟩ := constantWithin_eq_ok done
    · exact ⟨zero.le, .inr zero⟩
    · cases zero
  | succ limit ih =>
    obtain zero | ⟨shorter, name, descriptor, bootstrap, row, same, rfl, found⟩ :=
      constantWithin_eq_ok done
    · exact ⟨by omega, .inr zero⟩
    · cases same
      obtain ⟨deep, arguments⟩ := bootstrapMethod_eq_ok found
      refine ⟨Nat.succ_le_succ (Constant.listNesting_le_iff.2 fun argument member => ?_), .inl deep⟩
      obtain ⟨index, here⟩ := arguments argument member
      exact (ih here).1

theorem nesting_of_constant {index : UInt16} {constant : Constant}
    (done : pool.constant index = .ok constant) : constant.nesting ≤ pool.depth := by
  obtain ⟨small, deep | zero⟩ := nesting_of_constantWithin done
  · rwa [deep]
  · omega

theorem nesting_of_invokeDynamic {index : UInt16} {name descriptor : String}
    {bootstrap : BootstrapMethod} (done : pool.invokeDynamic index = .ok (name, descriptor, bootstrap)) :
    pool.depth ≠ 0 ∧ Constant.listNesting bootstrap.arguments ≤ pool.depth := by
  obtain ⟨entry, -, done⟩ := Except.bind_eq_ok.1 done
  split at done
  case h_1 row nameType =>
    obtain ⟨pair, -, done⟩ := Except.bind_eq_ok.1 done
    obtain ⟨found, here, done⟩ := Except.bind_eq_ok.1 done
    cases done
    obtain ⟨deep, arguments⟩ := bootstrapMethod_eq_ok here
    refine ⟨by rw [deep]; decide, Constant.listNesting_le_iff.2 fun argument member => ?_⟩
    obtain ⟨index, constant⟩ := arguments argument member
    exact nesting_of_constant constant
  case h_2 => cases done

theorem gives_takeClassName (pool : ConstantPool) :
    Gives pool.takeClassName fun count _ => count = 2 := by
  refine Gives.u2.bind fun _ index two => Gives.lift.mono fun _ name found => ?_
  rw [two, found.1]
  rfl

end ConstantPool

/-! Annotations and frames. -/

theorem TypeTarget.gives_read (targetType : UInt8) :
    Gives (TypeTarget.read targetType) fun _ target => target.Matches targetType := by
  unfold TypeTarget.read
  refine .ite (fun here => Gives.any.bind fun _ _ _ => .pure here) fun _ => ?_
  refine .ite (fun here => Gives.any.bind fun _ _ _ => .pure here) fun _ => ?_
  refine .ite (fun here => Gives.any.bind fun _ _ _ => Gives.any.bind fun _ _ _ => .pure here)
    fun _ => ?_
  refine .ite (fun here => .pure here) fun _ => ?_
  refine .ite (fun here => Gives.any.bind fun _ _ _ => .pure here) fun _ => ?_
  refine .ite (fun here => Gives.any.bind fun _ _ _ => .pure here) fun _ => ?_
  refine .ite (fun here => Gives.any.bind fun _ _ _ => .pure here) fun _ => ?_
  refine .ite (fun here => Gives.any.bind fun _ _ _ => .pure here) fun _ => ?_
  refine .ite (fun here => Gives.any.bind fun _ _ _ => .pure here) fun _ => ?_
  refine .ite (fun here => Gives.any.bind fun _ _ _ => Gives.any.bind fun _ _ _ => .pure here)
    fun _ => ?_
  exact .throw

theorem TypeAnnotation.gives_readTable (pool : ConstantPool) :
    Gives (readTable pool) fun _ items =>
      ∀ item ∈ items, item.target.Matches item.targetType := by
  intro bytes items rest done
  have each : Gives (read pool bytes.length) fun _ item =>
      item.target.Matches item.targetType :=
    Gives.any.bind fun _ targetType _ => (TypeTarget.gives_read targetType).bind
      fun _ target goes => Gives.any.bind fun _ count _ => Gives.any.bind fun _ path _ =>
        Gives.any.bind fun _ value _ => .pure goes
  exact Gives.table each done

theorem Frame.gives_readRelative (pool : ConstantPool) :
    Gives (Frame.readRelative pool) fun _ frame => frame.kind.Short := by
  refine Gives.any.bind fun _ tag _ => ?_
  split
  · exact .pure trivial
  split
  · exact Gives.any.bind fun _ item _ => .pure trivial
  split
  · exact .throw
  refine Gives.any.bind fun _ distance _ => ?_
  split
  · exact Gives.any.bind fun _ item _ => .pure trivial
  split
  case isTrue chopped =>
    refine .pure ?_
    simp only [FrameKind.Short]
    grind
  split
  · exact .pure trivial
  split
  case isTrue appended =>
    have several : Gives (many (tag - 251).toNat (VerificationType.read pool)) fun _ types =>
        types.length = (tag - 251).toNat := fun _ _ _ done => Reader.length_many done
    have low : 1 ≤ tag - 251 := by grind
    have high : tag - 251 ≤ 3 := by grind
    refine several.bind fun _ types length => .pure ?_
    simp only [FrameKind.Short, length]
    exact ⟨UInt8.le_iff_toNat_le.1 low, UInt8.le_iff_toNat_le.1 high⟩
  · exact Gives.any.bind fun _ locals _ => Gives.any.bind fun _ stack _ => .pure trivial

theorem Frame.short_absolute {base : Nat} {frames : List Frame}
    (short : ∀ frame ∈ frames, frame.kind.Short) :
    ∀ frame ∈ Frame.absolute base frames, frame.kind.Short := by
  induction frames generalizing base with
  | nil => simp [Frame.absolute]
  | cons first rest ih =>
    intro frame member
    rcases List.mem_cons.1 member with rfl | member
    · exact short first (by simp)
    · exact ih (fun other inside => short other (by simp [inside])) frame member

theorem Frame.gives_readTable (pool : ConstantPool) :
    Gives (Frame.readTable pool) fun _ frames => ∀ frame ∈ frames, frame.kind.Short :=
  (Gives.table (Frame.gives_readRelative pool)).bind fun _ _ short =>
    .pure (Frame.short_absolute short)

namespace Instruction

variable {depth length offset : Nat} {pool : ConstantPool}

theorem gives_readTarget (far : Bool) :
    Gives (readTarget length offset far) fun count _ => count = if far then 4 else 2 := by
  have rest : ∀ delta : Int, Gives (do
      let target : Int := offset + delta
      if target < 0 ∨ (length : Int) ≤ target then throw (.invalidCodeOffset offset target)
      return target.toNat) fun count _ => count = 0 := by
    intro delta
    dsimp only
    split
    · exact .throw
    · exact .pure rfl
  cases far with
  | true =>
    refine Gives.u4.bind fun count word four => (rest _).mono fun more _ nothing => ?_
    rw [four, nothing]
    rfl
  | false =>
    refine Gives.u2.bind fun count word two => (rest _).mono fun more _ nothing => ?_
    rw [two, nothing]
    rfl

theorem gives_remaining : Gives remaining fun count _ => count = 0 := by
  intro bytes count rest done
  cases done
  exact Int.sub_self _

theorem gives_readTableSwitch : Gives (readTableSwitch length offset) fun count instruction =>
    instruction.Proper depth ∧ 1 + count = instruction.size offset := by
  refine Gives.take.discard.bind fun _ _ padded => ?_
  refine (gives_readTarget true).bind fun _ default four => ?_
  refine Gives.u4.bind fun _ low alsoFour => Gives.u4.bind fun _ high fourAgain => ?_
  dsimp only
  split
  · exact .throw
  case isFalse order =>
    refine gives_remaining.bind fun _ left nothing => ?_
    split
    · exact .throw
    · have each : Gives (readTarget length offset true) fun count _ => count = 4 ∧ True :=
        (gives_readTarget true).mono fun _ _ four => ⟨four, trivial⟩
      refine (each.many _).bind fun _ targets all => .pure ⟨⟨order, all.2.1.symm⟩, ?_⟩
      obtain ⟨_, rfl, -⟩ := padded
      obtain ⟨rfl, length, -⟩ := all
      rw [size, ← length]
      simp only [if_true] at four
      push_cast
      omega

theorem gives_readLookupSwitch : Gives (readLookupSwitch length offset) fun count instruction =>
    instruction.Proper depth ∧ 1 + count = instruction.size offset := by
  refine Gives.take.discard.bind fun _ _ padded => ?_
  refine (gives_readTarget true).bind fun _ default four => ?_
  refine Gives.u4.bind fun _ count alsoFour => gives_remaining.bind fun _ left nothing => ?_
  dsimp only
  split
  · exact .throw
  · have each : Gives (do return ((← Reader.u4).toInt32, ← readTarget length offset true))
        fun count _ => count = 8 ∧ True := by
      refine Gives.u4.bind fun _ key four => (gives_readTarget true).bind fun _ target more => ?_
      refine .pure ⟨?_, trivial⟩
      simp only [if_true] at more
      omega
    refine (each.many _).bind fun _ pairs all => .pure ⟨trivial, ?_⟩
    obtain ⟨_, rfl, -⟩ := padded
    obtain ⟨rfl, length, -⟩ := all
    rw [size, ← length]
    simp only [if_true] at four
    push_cast
    omega

theorem gives_readWide : Gives (readWide offset) fun count instruction =>
    instruction.Proper depth ∧ 1 + count = instruction.size offset := by
  refine Gives.u1.bind fun _ opcode one => ?_
  subst one
  split
  case h_1 format =>
    refine Gives.u2.bind fun _ index two => .pure ⟨⟨format, .inl rfl⟩, ?_⟩
    rw [two]
    rfl
  case h_2 =>
    refine Gives.u2.bind fun _ index two => Gives.u2.bind fun _ delta more => .pure ⟨.inl rfl, ?_⟩
    rw [two, more]
    rfl
  case h_3 => exact .throw

theorem gives_read (pool : ConstantPool) (length offset : Nat) :
    Gives (read pool length offset) fun count instruction =>
      instruction.Proper pool.depth ∧ count = instruction.size offset := by
  refine Gives.u1.bind fun count opcode one => ?_
  subst one
  obtain ⟨byte, narrow, far, interface⟩ := Opcode.format_single opcode
  split
  case h_1 => exact .throw
  case h_2 format => exact .pure ⟨format, rfl⟩
  case h_3 format =>
    refine Gives.u1.bind fun _ value one => .pure ⟨.inl ⟨format, value.toInt8, rfl⟩, ?_⟩
    rw [one, size, if_pos (byte.1 format)]
    rfl
  case h_4 format =>
    have long : opcode ≠ Opcode.bipush := fun same => by simp [byte.2 same] at format
    refine Gives.u2.bind fun _ value two => .pure ⟨.inr format, ?_⟩
    rw [two, size, if_neg long]
    rfl
  case h_5 format =>
    refine Gives.u1.bind fun _ index one => Gives.lift.bind fun _ constant found => ?_
    refine .pure ⟨⟨.inl format, ConstantPool.nesting_of_constant found.2⟩, ?_⟩
    rw [one, found.1, size, if_pos (narrow.1 format)]
    rfl
  case h_6 format =>
    have long : opcode ≠ Opcode.ldc := fun same => by simp [narrow.2 same] at format
    refine Gives.u2.bind fun _ index two => Gives.lift.bind fun _ constant found => ?_
    refine .pure ⟨⟨.inr format, ConstantPool.nesting_of_constant found.2⟩, ?_⟩
    rw [two, found.1, size, if_neg long]
    rfl
  case h_7 format =>
    refine Gives.u1.bind fun _ index one => .pure ⟨⟨format, .inr index.toNat_lt⟩, ?_⟩
    rw [one]
    rfl
  case h_8 format =>
    refine Gives.u1.bind fun _ index one => Gives.u1.bind fun _ delta more => ?_
    refine .pure ⟨.inr ⟨index.toNat_lt, delta.toInt8, rfl⟩, ?_⟩
    rw [one, more]
    rfl
  case h_9 format =>
    have near : ¬(opcode = Opcode.gotoW ∨ opcode = Opcode.jsrW) :=
      fun same => by simp [far.2 same] at format
    refine (gives_readTarget false).bind fun _ target two => .pure ⟨.inl format, ?_⟩
    rw [two, size, if_neg near]
    rfl
  case h_10 format =>
    refine (gives_readTarget true).bind fun _ target four => .pure ⟨.inr format, ?_⟩
    rw [four, size, if_pos (far.1 format)]
    rfl
  case h_11 => exact gives_readTableSwitch
  case h_12 => exact gives_readLookupSwitch
  case h_13 format =>
    refine Gives.u2.bind fun _ index two => Gives.lift.bind fun _ member found => ?_
    refine .pure ⟨format, ?_⟩
    rw [two, found.1]
    rfl
  case h_14 format =>
    have short : opcode ≠ Opcode.invokeinterface := fun same => by simp [interface.2 same] at format
    refine Gives.u2.bind fun _ index two => Gives.lift.bind fun _ member found => ?_
    refine .pure ⟨.inl format, ?_⟩
    rw [two, found.1, size, if_neg short]
    rfl
  case h_15 format =>
    refine Gives.u2.bind fun _ index two => Gives.lift.bind fun _ member found => ?_
    refine Gives.take.discard.bind fun _ _ more => .pure ⟨.inr ⟨format, rfl⟩, ?_⟩
    obtain ⟨_, rfl, -⟩ := more
    rw [two, found.1, size, if_pos (interface.1 format)]
    rfl
  case h_16 format =>
    refine Gives.u2.bind fun _ index two => Gives.lift.bind fun _ site found => ?_
    refine Gives.take.discard.bind fun _ _ more =>
      .pure ⟨ConstantPool.nesting_of_invokeDynamic found.2, ?_⟩
    obtain ⟨_, rfl, -⟩ := more
    rw [two, found.1]
    rfl
  case h_17 format =>
    refine pool.gives_takeClassName.bind fun _ name two => .pure ⟨format, ?_⟩
    rw [two]
    rfl
  case h_18 =>
    refine Gives.u1.bind fun _ elementType one => .pure ⟨trivial, ?_⟩
    rw [one]
    rfl
  case h_19 => exact gives_readWide
  case h_20 =>
    refine pool.gives_takeClassName.bind fun _ name two => ?_
    refine Gives.u1.bind fun _ dimensions one => .pure ⟨trivial, ?_⟩
    rw [two, one]
    rfl

end Instruction

end ClassRenaming
