import ClassRenaming.Proofs.ComesBack
import ClassRenaming.Proofs.PoolGrowth
import ClassRenaming.Proofs.Texts

/-!
The index of a value is an index at which the value is found, in the pool that it was made in and in
every pool that comes of it.
-/

namespace ClassRenaming

open ConstantPool

variable {depth : Nat}

theorem utf8_of_entry {pool : ConstantPool} {index : UInt16} {text : String} {stored : Bytes}
    {exact : Bool} (found : pool.entry index = .ok (.utf8 text stored exact)) :
    pool.utf8 index = .ok text := by
  rw [ConstantPool.utf8, found]
  rfl

namespace ConstantPool

variable {pool : ConstantPool} {text : String}

theorem entry_of_findText? (sound : pool.Sound) {index : UInt16}
    (found : pool.findText? text = some index) :
    ∃ stored exact, pool.entry index = .ok (.utf8 text stored exact) := by
  have room : pool.entries.toList.length ≤ 65536 := by simpa using sound.size.le
  unfold findText? at found
  obtain ⟨position, here, rfl⟩ := Option.map_eq_some_iff.1 found
  rw [Option.or_eq_some_iff] at here
  rcases here with here | ⟨-, here⟩
  all_goals
    obtain ⟨item, there, good⟩ := toNat_of_findIdx? room (congrArg (Option.map Nat.toUInt16) here)
    dsimp only at good
    split at good
    case h_1 other stored exact =>
      obtain ⟨-, rfl⟩ := by simpa only [Bool.and_eq_true, beq_iff_eq] using good
      exact ⟨stored, exact, entry_eq_ok.2 ⟨there, by simp⟩⟩
    case h_2 => cases good

theorem not_mem_of_findText? (missing : pool.findText? text = none) (stored : Bytes) (exact : Bool) :
    .utf8 text stored exact ∉ pool.entries.toList := by
  intro member
  unfold findText? at missing
  rw [Option.map_eq_none_iff, Option.or_eq_none_iff] at missing
  cases exact with
  | true => simpa using List.findIdx?_eq_none_iff.1 missing.1 _ member
  | false => simpa using List.findIdx?_eq_none_iff.1 missing.2 _ member

theorem ReadsAs.update {back : String → String} (told : pool.ReadsAs back)
    (missing : ∀ stored exact, .utf8 text stored exact ∉ pool.entries.toList) :
    pool.ReadsAs (Function.update back text (ModifiedUtf8.recoded text)) := by
  constructor
  · intro other stored exact member
    have differs : other ≠ text := by
      rintro rfl
      exact missing stored exact member
    rw [Function.update_of_ne differs]
    exact told.text other stored exact member
  · intro other
    by_cases same : other = text
    · rw [same, Function.update_self]
      exact .inr rfl
    · rw [Function.update_of_ne same]
      exact told.near other

end ConstantPool

theorem interns_utf8 (text : String) :
    Interns depth (Interning.utf8 text) fun pool index => pool.utf8 index = .ok text := by
  intro pool sound index next done
  unfold Interning.utf8 at done
  split at done
  case h_1 found here =>
    cases done
    obtain ⟨stored, exact, there⟩ := entry_of_findText? sound here
    exact ⟨sound, .refl pool, fun final _ grows => utf8_of_entry (grows.entry there)⟩
  case h_2 missing =>
    dsimp only at done
    split at done
    · cases done
    case isFalse short =>
      have stored : (PoolEntry.utf8 text (ModifiedUtf8.encode text) true).Stored :=
        ⟨by omega, .inr ⟨rfl, rfl⟩⟩
      obtain ⟨back, told⟩ := sound.texts
      have fits : ∀ other bytes exact,
          PoolEntry.utf8 text (ModifiedUtf8.encode text) true = .utf8 other bytes exact →
            ∃ again, ModifiedUtf8.decode bytes =
              .ok ⟨Function.update back text (ModifiedUtf8.recoded text) other, again⟩ := by
        rintro _ _ _ ⟨⟩
        rw [Function.update_self]
        exact ⟨_, ModifiedUtf8.decode_encode text⟩
      obtain ⟨sound, grows, good⟩ :=
        grows_append sound stored (told.update (not_mem_of_findText? missing)) fits done
      exact ⟨sound, grows, fun final _ far => utf8_of_entry (far.entry good)⟩

theorem interns_className (name : String) :
    Interns depth (Interning.className name) fun pool index => pool.className index = .ok name := by
  refine (interns_utf8 _).bind fun text => ?_
  refine (interns_entry (by exact trivial)).mono fun pool _ index found named => ?_
  rw [ConstantPool.className, found]
  exact named

theorem interns_nameAndType (name descriptor : String) :
    Interns depth (Interning.nameAndType name descriptor) fun pool index =>
      pool.nameAndType index = .ok (name, descriptor) := by
  refine (interns_utf8 _).bind fun first => ?_
  refine (interns_utf8 _).bind fun second => ?_
  refine (interns_entry (by exact trivial)).mono fun pool _ index found typed named => ?_
  rw [ConstantPool.nameAndType, found]
  simp only [bind, Except.bind, named, typed]
  rfl

theorem interns_memberParts (member : MemberRef) :
    Interns depth (Interning.memberParts member) fun pool parts =>
      pool.className parts.1 = .ok member.owner ∧
        pool.nameAndType parts.2 = .ok (member.name, member.descriptor) := by
  refine (interns_className _).bind fun owner => ?_
  refine (interns_nameAndType _ _).bind fun nameType => ?_
  exact .pure fun pool _ typed owned => ⟨owned, typed⟩

theorem memberRef_of_parts {pool : ConstantPool} {index : UInt16} {member : MemberRef}
    {parts : UInt16 × UInt16} {isInterface : Bool}
    (found : pool.entry index =
      .ok (if isInterface then .interfaceMethodRef parts.1 parts.2 else .methodRef parts.1 parts.2) ∨
      isInterface = false ∧ pool.entry index = .ok (.fieldRef parts.1 parts.2))
    (named : pool.className parts.1 = .ok member.owner ∧
      pool.nameAndType parts.2 = .ok (member.name, member.descriptor)) :
    pool.memberRef index = .ok (member, isInterface) := by
  rw [ConstantPool.memberRef]
  rcases found with found | ⟨rfl, found⟩
  · rw [found]
    cases isInterface <;> simp [bind, Except.bind, pure, Except.pure, named.1, named.2]
  · rw [found]
    simp [bind, Except.bind, pure, Except.pure, named.1, named.2]

theorem interns_fieldRef (member : MemberRef) :
    Interns depth (Interning.fieldRef member) fun pool index =>
      pool.memberRef index = .ok (member, false) := by
  refine (interns_memberParts _).bind fun parts => ?_
  refine (interns_entry (by exact trivial)).mono fun pool _ index found named => ?_
  exact memberRef_of_parts (.inr ⟨rfl, found⟩) named

theorem interns_methodRef (member : MemberRef) (isInterface : Bool) :
    Interns depth (Interning.methodRef member isInterface) fun pool index =>
      pool.memberRef index = .ok (member, isInterface) := by
  refine (interns_memberParts _).bind fun parts => ?_
  cases isInterface with
  | false =>
    refine (interns_entry (by exact trivial)).mono fun pool _ index found named => ?_
    exact memberRef_of_parts (.inl found) named
  | true =>
    refine (interns_entry (by exact trivial)).mono fun pool _ index found named => ?_
    exact memberRef_of_parts (.inl found) named

theorem methodHandle_of_entry {pool : ConstantPool} {index reference : UInt16} {kind : UInt8}
    {member : MemberRef} {isInterface : Bool}
    (found : pool.entry index = .ok (.methodHandle kind reference))
    (named : pool.memberRef reference = .ok (member, isInterface)) :
    pool.methodHandle index = .ok ⟨kind, member, isInterface⟩ := by
  rw [ConstantPool.methodHandle, found]
  simp [bind, Except.bind, pure, Except.pure, named]

theorem entry_of_methodHandle {pool : ConstantPool} {index : UInt16} {handle : MethodHandle}
    (named : pool.methodHandle index = .ok handle) :
    ∃ kind reference, pool.entry index = .ok (.methodHandle kind reference) := by
  unfold ConstantPool.methodHandle at named
  cases here : pool.entry index with
  | error cause =>
    rw [here] at named
    cases named
  | ok entry =>
    rw [here] at named
    cases entry with
    | methodHandle kind reference => exact ⟨kind, reference, rfl⟩
    | _ => cases named

theorem interns_methodHandle (handle : MethodHandle) :
    Interns depth (Interning.methodHandle handle) fun pool index =>
      pool.methodHandle index = .ok handle.normal := by
  unfold Interning.methodHandle MethodHandle.normal
  split
  · refine (interns_fieldRef _).bind fun reference => ?_
    refine (interns_entry (by exact trivial)).mono fun pool _ index found named => ?_
    exact methodHandle_of_entry found named
  · refine (interns_methodRef _ _).bind fun reference => ?_
    refine (interns_entry (by exact trivial)).mono fun pool _ index found named => ?_
    exact methodHandle_of_entry found named

theorem interns_bootstrapRow {row : BootstrapEntry} (deep : depth ≠ 0) :
    Interns depth (Interning.bootstrapRow row) fun pool index =>
      pool.bootstrap.toList[index.toNat]? = some row := by
  intro pool sound index next done
  have room : pool.bootstrap.toList.length ≤ 65536 := by simpa using sound.rows
  unfold Interning.bootstrapRow at done
  split at done
  case h_1 position here =>
    cases done
    obtain ⟨item, there, good⟩ :=
      toNat_of_findIdx? room (congrArg (Option.map Nat.toUInt16) here)
    obtain rfl : item = row := by simpa using good
    exact ⟨sound, .refl pool, fun final _ grows => grows.row there⟩
  case h_2 =>
    split at done
    · cases done
    case isFalse short =>
      cases done
      have there : (pool.bootstrap.push row).toList[pool.bootstrap.size.toUInt16.toNat]? =
          some row := by
        rw [Bytes.toNat_toUInt16 (by omega)]
        simp
      have size : (pool.bootstrap.push row).size ≤ 65536 := by
        rw [Array.size_push]
        omega
      exact ⟨sound.withBootstrap size,
        ⟨List.prefix_rfl, ⟨[row], by simp⟩, fun zero => absurd zero deep⟩,
        fun final _ grows => grows.row there⟩

/-! Constants, which may nest. -/

mutual

def Constant.nesting : Constant → Nat
  | .dynamic _ _ ⟨_, arguments⟩ => Constant.listNesting arguments + 1
  | _ => 0

def Constant.listNesting : List Constant → Nat
  | [] => 0
  | first :: rest => max first.nesting (Constant.listNesting rest)

end

def ConstantPool.Means (pool : ConstantPool) (constant : Constant) (index : UInt16) : Prop :=
  ∀ limit, constant.nesting ≤ limit → pool.constantWithin limit index = .ok constant.normal

section Means

variable {pool : ConstantPool} {index : UInt16}

theorem bootstrapMethod_of_row {row : UInt16} {method : UInt16} {handle : MethodHandle}
    {indices : List UInt16} {arguments : List Constant}
    {argument : UInt16 → Except FormatError Constant}
    (found : pool.bootstrap.toList[row.toNat]? = some ⟨method, indices⟩)
    (named : pool.methodHandle method = .ok handle)
    (each : indices.mapM argument = .ok arguments) :
    pool.bootstrapMethod argument row = .ok ⟨handle, arguments⟩ := by
  rw [Array.getElem?_toList] at found
  simp [ConstantPool.bootstrapMethod, found, named, each, bind, Except.bind, pure, Except.pure]

end Means

mutual

theorem interns_constant : ∀ constant : Constant, constant.nesting ≤ depth →
    Interns depth (Interning.constant constant) fun pool index => pool.Means constant index
  | .integer value, _ => by
    refine (interns_entry (by exact trivial)).mono fun pool _ index found limit _ => ?_
    rw [ConstantPool.constantWithin, found]
    rfl
  | .float bits, _ => by
    refine (interns_entry (by exact trivial)).mono fun pool _ index found limit _ => ?_
    rw [ConstantPool.constantWithin, found]
    rfl
  | .long value, _ => by
    refine (interns_entry (by exact trivial)).mono fun pool _ index found limit _ => ?_
    rw [ConstantPool.constantWithin, found]
    rfl
  | .double bits, _ => by
    refine (interns_entry (by exact trivial)).mono fun pool _ index found limit _ => ?_
    rw [ConstantPool.constantWithin, found]
    rfl
  | .string text, _ => by
    refine (interns_utf8 _).bind fun text => ?_
    refine (interns_entry (by exact trivial)).mono fun pool _ index found named limit _ => ?_
    rw [ConstantPool.constantWithin, found]
    simp [bind, Except.bind, named, Constant.normal, pure, Except.pure]
  | .classRef name, _ => by
    refine (interns_utf8 _).bind fun text => ?_
    refine (interns_entry (by exact trivial)).mono fun pool _ index found named limit _ => ?_
    rw [ConstantPool.constantWithin, found]
    simp [bind, Except.bind, named, Constant.normal, pure, Except.pure]
  | .methodType descriptor, _ => by
    refine (interns_utf8 _).bind fun text => ?_
    refine (interns_entry (by exact trivial)).mono fun pool _ index found named limit _ => ?_
    rw [ConstantPool.constantWithin, found]
    simp [bind, Except.bind, named, Constant.normal, pure, Except.pure]
  | .methodHandle handle, _ => by
    refine (interns_methodHandle _).mono fun pool _ index named limit _ => ?_
    obtain ⟨kind, reference, found⟩ := entry_of_methodHandle named
    rw [ConstantPool.constantWithin, found]
    simp [bind, Except.bind, named, Constant.normal, pure, Except.pure]
  | .dynamic name descriptor ⟨method, arguments⟩, nests => by
    have inside : Constant.listNesting arguments + 1 ≤ depth := nests
    refine (interns_methodHandle _).bind fun handle => ?_
    refine (interns_constants arguments (by omega)).bind fun indices => ?_
    refine (interns_bootstrapRow (by omega)).bind fun row => ?_
    refine (interns_nameAndType _ _).bind fun nameType => ?_
    refine (interns_entry (by exact trivial)).mono fun pool _ index found typed placed each named => ?_
    intro limit nests
    cases limit with
    | zero => exact absurd nests (Nat.not_succ_le_zero _)
    | succ limit =>
      have bootstrap := bootstrapMethod_of_row placed named (each limit (Nat.le_of_succ_le_succ nests))
      rw [ConstantPool.constantWithin, found]
      simp [bind, Except.bind, typed, bootstrap, Constant.normal, pure, Except.pure]

theorem interns_constants : ∀ constants : List Constant, Constant.listNesting constants ≤ depth →
    Interns depth (Interning.constants constants) fun pool indices =>
      ∀ limit, Constant.listNesting constants ≤ limit →
        indices.mapM (pool.constantWithin limit) = .ok (Constant.normalList constants)
  | [], _ => .pure fun _ _ _ _ => rfl
  | first :: rest, nests => by
    have inside : max first.nesting (Constant.listNesting rest) ≤ depth := nests
    refine (interns_constant first (by omega)).bind fun index => ?_
    refine (interns_constants rest (by omega)).bind fun indices => ?_
    refine .pure fun pool _ later now limit nests => ?_
    have deep : max first.nesting (Constant.listNesting rest) ≤ limit := nests
    rw [List.mapM_cons, now limit (by omega)]
    simp [bind, Except.bind, later limit (by omega), Constant.normalList, pure, Except.pure]

end

theorem interns_bootstrapMethod {bootstrap : BootstrapMethod} (deep : depth ≠ 0)
    (nests : Constant.listNesting bootstrap.arguments ≤ depth) :
    Interns depth (Interning.bootstrapMethod bootstrap) fun pool row =>
      ∀ limit, Constant.listNesting bootstrap.arguments ≤ limit →
        pool.bootstrapMethod (pool.constantWithin limit) row = .ok (normalBootstrap bootstrap) := by
  refine (interns_methodHandle _).bind fun handle => ?_
  refine (interns_constants bootstrap.arguments nests).bind fun indices => ?_
  refine (interns_bootstrapRow deep).mono fun pool _ row placed each named limit inside => ?_
  exact bootstrapMethod_of_row placed named (each limit inside)

theorem interns_invokeDynamic {name descriptor : String} {bootstrap : BootstrapMethod}
    (deep : depth ≠ 0) (within : depth ≤ ConstantPool.dynamicDepth)
    (nests : Constant.listNesting bootstrap.arguments ≤ depth) :
    Interns depth (Interning.invokeDynamic name descriptor bootstrap) fun pool index =>
      pool.invokeDynamic index = .ok (name, descriptor, normalBootstrap bootstrap) := by
  refine (interns_bootstrapMethod deep nests).bind fun row => ?_
  refine (interns_nameAndType _ _).bind fun nameType => ?_
  refine (interns_entry (by exact trivial)).mono fun pool _ index found typed linked => ?_
  have bootstrap := linked ConstantPool.dynamicDepth (nests.trans within)
  rw [ConstantPool.invokeDynamic, found]
  simp only [bind, Except.bind, typed]
  unfold ConstantPool.constant
  rw [bootstrap]
  rfl

end ClassRenaming
