import ClassRenaming.Proofs.RetoldPool
import ClassRenaming.Proofs.StoredConstants

/-!
Runs of the pool that a class is written with. Whatever is asked of it, it only grows at its end, and
every index that it gave is that of the value it was asked for, in the bytes that are written last.
-/

namespace ClassRenaming

/-- A value that has an index in a pool or, if it is a bootstrap method, a row in the table. -/
inductive PoolValue where
  | utf8 (text : String)
  | className (name : String)
  | string (text : String)
  | nameAndType (name descriptor : String)
  | fieldRef (member : MemberRef)
  | methodRef (member : MemberRef) (isInterface : Bool)
  | methodHandle (handle : MethodHandle)
  | constant (constant : Constant)
  | invokeDynamic (name descriptor : String) (bootstrap : BootstrapMethod)
  | bootstrapMethod (bootstrap : BootstrapMethod)
  deriving Inhabited

mutual

def Constant.handles : Constant → List MethodHandle
  | .methodHandle handle => [handle]
  | .dynamic _ _ ⟨method, arguments⟩ => method :: Constant.listHandles arguments
  | _ => []

def Constant.listHandles : List Constant → List MethodHandle
  | [] => []
  | first :: rest => first.handles ++ Constant.listHandles rest

end

namespace PoolValue

def intern : PoolValue → Interning UInt16
  | utf8 text => Interning.utf8 text
  | className name => Interning.className name
  | string text => Interning.constant (.string text)
  | nameAndType name descriptor => Interning.nameAndType name descriptor
  | fieldRef member => Interning.fieldRef member
  | methodRef member isInterface => Interning.methodRef member isInterface
  | methodHandle handle => Interning.methodHandle handle
  | constant value => Interning.constant value
  | invokeDynamic name descriptor bootstrap => Interning.invokeDynamic name descriptor bootstrap
  | bootstrapMethod bootstrap => Interning.bootstrapMethod bootstrap

def IsAt (pool : ConstantPool) (index : UInt16) : PoolValue → Prop
  | utf8 text => pool.utf8 index = .ok text
  | className name => pool.className index = .ok name
  | string text => pool.constant index = .ok (.string text)
  | nameAndType name descriptor => pool.nameAndType index = .ok (name, descriptor)
  | fieldRef member => pool.memberRef index = .ok (member, false) ∧
    ∃ owner nameType, pool.entry index = .ok (.fieldRef owner nameType)
  | methodRef member isInterface => pool.memberRef index = .ok (member, isInterface) ∧
    ∃ owner nameType, pool.entry index =
      .ok (if isInterface then .interfaceMethodRef owner nameType else .methodRef owner nameType)
  | methodHandle handle => pool.methodHandle index = .ok handle
  | constant value => pool.constant index = .ok value
  | invokeDynamic name descriptor bootstrap =>
    pool.invokeDynamic index = .ok (name, descriptor, bootstrap)
  | bootstrapMethod bootstrap => pool.bootstrapMethod pool.constant index = .ok bootstrap

def texts : PoolValue → List String
  | utf8 text | className text | string text => [text]
  | nameAndType name descriptor => [name, descriptor]
  | fieldRef member | methodRef member _ => member.texts
  | methodHandle handle => handle.texts
  | constant value => value.texts
  | invokeDynamic name descriptor bootstrap => name :: descriptor :: bootstrapTexts bootstrap
  | bootstrapMethod bootstrap => bootstrapTexts bootstrap

def handles : PoolValue → List MethodHandle
  | methodHandle handle => [handle]
  | constant value => value.handles
  | invokeDynamic _ _ bootstrap | bootstrapMethod bootstrap =>
    bootstrap.method :: Constant.listHandles bootstrap.arguments
  | _ => []

def nesting : PoolValue → Nat
  | constant value => value.nesting
  | invokeDynamic _ _ bootstrap | bootstrapMethod bootstrap =>
    Constant.listNesting bootstrap.arguments
  | _ => 0

/-- Texts without the halves of a pair side by side, constants that nest no deeper than is read, and
no field that is said to be declared in an interface. -/
structure Fits (value : PoolValue) : Prop where
  texts : AllStorable value.texts
  nesting : value.nesting ≤ ConstantPool.dynamicDepth
  handles : ∀ handle ∈ value.handles, handle.isField = true → handle.isInterface = false

end PoolValue

/-! Handles of fields that are not said to be declared in an interface. -/

section Normal

theorem MethodHandle.normal_eq_self {handle : MethodHandle}
    (plain : handle.isField = true → handle.isInterface = false) : handle.normal = handle := by
  unfold MethodHandle.normal
  split
  · next field => rw [← plain field]
  · rfl

mutual

theorem Constant.normal_eq_self : ∀ constant : Constant,
    (∀ handle ∈ constant.handles, handle.isField = true → handle.isInterface = false) →
      constant.normal = constant
  | .integer _, _ | .float _, _ | .long _, _ | .double _, _ | .string _, _ | .classRef _, _
  | .methodType _, _ => rfl
  | .methodHandle handle, plain => by
    rw [Constant.normal, MethodHandle.normal_eq_self (plain handle List.mem_cons_self)]
  | .dynamic name descriptor ⟨method, arguments⟩, plain => by
    have inside := List.forall_mem_cons.1 plain
    rw [Constant.normal, MethodHandle.normal_eq_self inside.1,
      Constant.normalList_eq_self arguments inside.2]

theorem Constant.normalList_eq_self : ∀ constants : List Constant,
    (∀ handle ∈ Constant.listHandles constants,
      handle.isField = true → handle.isInterface = false) →
        Constant.normalList constants = constants
  | [], _ => rfl
  | first :: rest, plain => by
    have inside := List.forall_mem_append.1 plain
    rw [Constant.normalList, Constant.normal_eq_self first inside.1,
      Constant.normalList_eq_self rest inside.2]

end

theorem normalBootstrap_eq_self {bootstrap : BootstrapMethod}
    (plain : ∀ handle ∈ bootstrap.method :: Constant.listHandles bootstrap.arguments,
      handle.isField = true → handle.isInterface = false) :
    normalBootstrap bootstrap = bootstrap := by
  have inside := List.forall_mem_cons.1 plain
  rw [normalBootstrap, MethodHandle.normal_eq_self inside.1,
    Constant.normalList_eq_self _ inside.2]

end Normal

theorem Interns.and {α : Type} {depth : Nat} {action : Interning α}
    {means other : ConstantPool → α → Prop} (first : Interns depth action means)
    (second : Interns depth action other) :
    Interns depth action fun pool value => means pool value ∧ other pool value := by
  intro pool sound value next done
  obtain ⟨still, grows, good⟩ := first sound done
  obtain ⟨-, -, better⟩ := second sound done
  exact ⟨still, grows, fun final fine far => ⟨good fine far, better fine far⟩⟩

section Values

theorem interns_fieldRef_entry {depth : Nat} (member : MemberRef) :
    Interns depth (Interning.fieldRef member) fun pool index =>
      ∃ owner nameType, pool.entry index = .ok (.fieldRef owner nameType) := by
  refine (interns_memberParts _).bind fun parts => ?_
  exact (interns_entry (by exact trivial)).mono fun pool _ index found _ => ⟨_, _, found⟩

theorem interns_methodRef_entry {depth : Nat} (member : MemberRef) (isInterface : Bool) :
    Interns depth (Interning.methodRef member isInterface) fun pool index =>
      ∃ owner nameType, pool.entry index =
        .ok (if isInterface then .interfaceMethodRef owner nameType
          else .methodRef owner nameType) := by
  refine (interns_memberParts _).bind fun parts => ?_
  cases isInterface <;>
    exact (interns_entry (by exact trivial)).mono fun pool _ index found _ => ⟨_, _, found⟩

theorem PoolValue.interns {value : PoolValue} (nests : value.nesting ≤ ConstantPool.dynamicDepth)
    (plain : ∀ handle ∈ value.handles, handle.isField = true → handle.isInterface = false) :
    Interns ConstantPool.dynamicDepth value.intern fun pool index => value.IsAt pool index := by
  have deep : ConstantPool.dynamicDepth ≠ 0 := by decide
  cases value with
  | utf8 text => exact interns_utf8 text
  | className name => exact interns_className name
  | string text =>
    refine (interns_constant (.string text) (Nat.zero_le _)).mono fun pool _ index means => ?_
    exact means _ (Nat.zero_le _)
  | nameAndType name descriptor => exact interns_nameAndType name descriptor
  | fieldRef member => exact (interns_fieldRef member).and (interns_fieldRef_entry member)
  | methodRef member isInterface =>
    exact (interns_methodRef member isInterface).and (interns_methodRef_entry member isInterface)
  | methodHandle handle =>
    have same := MethodHandle.normal_eq_self (plain handle List.mem_cons_self)
    refine (interns_methodHandle handle).mono fun pool _ index found => ?_
    rwa [same] at found
  | constant constant =>
    have same := Constant.normal_eq_self constant plain
    refine (interns_constant constant nests).mono fun pool _ index means => ?_
    have found := means _ nests
    rwa [same] at found
  | invokeDynamic name descriptor bootstrap =>
    have same := normalBootstrap_eq_self plain
    refine (interns_invokeDynamic deep (Nat.le_refl _) nests).mono fun pool _ index found => ?_
    rwa [same] at found
  | bootstrapMethod bootstrap =>
    have same := normalBootstrap_eq_self plain
    refine (interns_bootstrapMethod deep nests).mono fun pool _ index found => ?_
    have here := found _ nests
    rwa [same] at here

theorem PoolValue.IsAt.retold {f : String → String} {pool other : ConstantPool}
    (retold : pool.Retold f other) {value : PoolValue} (fixes : Fixes f value.texts)
    {index : UInt16} (isAt : value.IsAt pool index) : value.IsAt other index := by
  cases value with
  | utf8 text =>
    have there := retold.utf8 isAt
    rwa [fixes.head] at there
  | className name =>
    have there := retold.className isAt
    rwa [fixes.head] at there
  | string text =>
    have there := retold.constant isAt
    rwa [Constant.mapTexts_eq_self _ fixes] at there
  | nameAndType name descriptor =>
    have there := retold.nameAndType isAt
    rwa [fixes.head, fixes.tail.head] at there
  | fieldRef member =>
    obtain ⟨found, owner, nameType, here⟩ := isAt
    have there := retold.memberRef found
    rw [MemberRef.mapTexts_eq_self fixes] at there
    exact ⟨there, owner, nameType, retold.plain here trivial⟩
  | methodRef member isInterface =>
    obtain ⟨found, owner, nameType, here⟩ := isAt
    have there := retold.memberRef found
    rw [MemberRef.mapTexts_eq_self fixes] at there
    refine ⟨there, owner, nameType, retold.plain here ?_⟩
    cases isInterface <;> trivial
  | methodHandle handle =>
    have there := retold.methodHandle isAt
    rwa [MethodHandle.mapTexts_eq_self fixes] at there
  | constant constant =>
    have there := retold.constant isAt
    rwa [Constant.mapTexts_eq_self _ fixes] at there
  | invokeDynamic name descriptor bootstrap =>
    have there := retold.invokeDynamic isAt
    rwa [fixes.head, fixes.tail.head, mapBootstrapTexts_eq_self fixes.tail.tail] at there
  | bootstrapMethod bootstrap =>
    have there := retold.bootstrapMethod (fun _ _ => retold.constant) isAt
    rwa [mapBootstrapTexts_eq_self fixes] at there

end Values

section Runs

/-- What a run of successful calls leaves behind a pool that was read with any table of bootstrap
methods: the bytes of the last pool are those of a pool with all old entries at their indices and all
old rows in front, and every index that was given is that of the value it was given for. -/
theorem ConstantPool.reads_interned {bytes rest : Bytes} {pool last : ConstantPool}
    {rows : Array BootstrapEntry} {values : List PoolValue} {indices : List UInt16}
    (accepted : ConstantPool.read bytes = .ok (pool, rest)) (short : rows.size < 65536)
    (fits : ∀ value ∈ values, value.Fits)
    (done : (values.mapM PoolValue.intern).run { pool with bootstrap := rows } =
      .ok (indices, last)) :
    ∃ emitted, ConstantPool.read last.encode = .ok (emitted, []) ∧
      last.entries.size ≤ 65535 ∧
      (∀ (index : Nat) entry, pool.entries[index]? = some entry →
        emitted.entries[index]? = some entry) ∧
      rows.toList <+: last.bootstrap.toList ∧
      List.Forall₂ (fun value index =>
        value.IsAt { emitted with bootstrap := last.bootstrap } index) values indices := by
  have start : ({ pool with bootstrap := rows } : ConstantPool).Sound :=
    (ConstantPool.sound_read accepted).withBootstrap short.le
  have interns := Interns.mapM fun value member =>
    PoolValue.interns (fits value member).nesting (fits value member).handles
  obtain ⟨sound, grows, each⟩ := interns start done
  obtain ⟨back, told⟩ := sound.texts
  have retold := told.retold
  have read := ConstantPool.reads_encode sound []
  rw [List.append_nil] at read
  refine ⟨_, read, Nat.le_of_lt_succ sound.size, ?_, grows.rows, ?_⟩
  · intro index entry found
    have old : pool.entries.toList[index]? = some entry := by rwa [Array.getElem?_toList]
    have still := getElem?_of_front grows.entries old
    have own := ConstantPool.own_read accepted entry (List.mem_of_getElem? old)
    rw [← Array.getElem?_toList]
    simp only [ConstantPool.reread, Array.toList_map, List.getElem?_map, still, Option.map_some,
      own.reread_eq_self]
  · have both := (List.forall₂_and_left _ _).2 ⟨fits, each sound (.refl _)⟩
    apply both.imp
    rintro value index ⟨fit, isAt⟩
    exact isAt.retold retold (fixes_of_storable told.near fit.texts)

/-- The values of a call site that is linked by the method of another class, and two constants. -/
def linkedValues : List PoolValue :=
  [.utf8 "A", .constant (.long 5), .string "b",
    .invokeDynamic "run" "()V" ⟨⟨6, ⟨"A", "link", "()V"⟩, false⟩, [.dynamic "c" "I"
      ⟨⟨6, ⟨"A", "make", "()I"⟩, false⟩, [.integer 1]⟩]⟩]

theorem reads_linkedValues : ∃ pool indices last emitted,
    ConstantPool.read (Bytes.u2 2 ++ [1, 0, 1, 0x41]) = .ok (pool, []) ∧
      (linkedValues.mapM PoolValue.intern).run { pool with bootstrap := #[] } =
        .ok (indices, last) ∧
      ConstantPool.read last.encode = .ok (emitted, []) ∧
      List.Forall₂ (fun value index =>
        value.IsAt { emitted with bootstrap := last.bootstrap } index) linkedValues indices := by
  have runs : (do
      let (pool, rest) ← ConstantPool.read (Bytes.u2 2 ++ [1, 0, 1, 0x41])
      let (indices, _) ← (linkedValues.mapM PoolValue.intern).run { pool with bootstrap := #[] }
      return (rest, indices)) = .ok ([], [1, 2, 5, 24]) := by
    decide +kernel
  obtain ⟨⟨pool, rest⟩, accepted, runs⟩ := Except.bind_eq_ok.1 runs
  obtain ⟨⟨indices, last⟩, done, runs⟩ := Except.bind_eq_ok.1 runs
  cases runs
  have fits : ∀ value ∈ linkedValues, value.Fits := by
    simp only [linkedValues, List.forall_mem_cons]
    exact ⟨⟨by decide, by decide, by decide⟩, ⟨by decide, by decide, by decide⟩,
      ⟨by decide, by decide, by decide⟩, ⟨by decide, by decide, by decide⟩, nofun⟩
  obtain ⟨emitted, read, -, -, -, each⟩ :=
    ConstantPool.reads_interned accepted (by decide) fits done
  exact ⟨pool, _, last, emitted, accepted, done, read, each⟩

end Runs

end ClassRenaming
