import ClassRenaming.ClassFile.Reading
import ClassRenaming.Proofs.MappedTexts
import ClassRenaming.Proofs.PoolGrowth

/-!
Two pools that say the same but for their texts: what one gives at an index the other gives with its
texts mapped. The bytes of a sound pool are read as such a pool.
-/

namespace ClassRenaming

theorem fixes_of_storable {back : String → String} {texts : List String}
    (near : ∀ text, back text = text ∨ back text = ModifiedUtf8.recoded text)
    (storable : AllStorable texts) : Fixes back texts := by
  intro text member
  rcases near text with same | recoded
  · exact same
  · rw [recoded, ModifiedUtf8.recoded_eq_self (storable text member)]

namespace PoolEntry

def Retold (f : String → String) : PoolEntry → PoolEntry → Prop
  | utf8 text stored _, other => ∃ exact, other = utf8 (f text) stored exact
  | entry, other => other = entry

theorem Retold.eq_self {f : String → String} {entry other : PoolEntry} (plain : entry.Plain)
    (retold : entry.Retold f other) : other = entry := by
  cases entry with
  | utf8 text stored exact => exact plain.elim
  | _ => exact retold

end PoolEntry

namespace ConstantPool

structure Retold (f : String → String) (pool other : ConstantPool) : Prop where
  entry : ∀ ⦃index : UInt16⦄ ⦃entry : PoolEntry⦄, pool.entry index = .ok entry →
    ∃ again, other.entry index = .ok again ∧ entry.Retold f again
  bootstrap : other.bootstrap = pool.bootstrap

variable {f : String → String} {pool other : ConstantPool} {index : UInt16}

/-! What is found at an index, by the entry there. -/

theorem utf8_eq_ok {text : String} : pool.utf8 index = .ok text ↔
    ∃ stored exact, pool.entry index = .ok (.utf8 text stored exact) := by
  constructor
  · intro done
    obtain ⟨entry, here, done⟩ := Except.bind_eq_ok.1 done
    cases entry with
    | utf8 found stored exact =>
      cases done
      exact ⟨stored, exact, here⟩
    | _ => cases done
  · rintro ⟨stored, exact, here⟩
    exact Except.bind_eq_ok.2 ⟨_, here, rfl⟩

theorem className_eq_ok {name : String} : pool.className index = .ok name ↔
    ∃ text, pool.entry index = .ok (.classRef text) ∧ pool.utf8 text = .ok name := by
  constructor
  · intro done
    obtain ⟨entry, here, done⟩ := Except.bind_eq_ok.1 done
    cases entry with
    | classRef text => exact ⟨text, here, done⟩
    | _ => cases done
  · rintro ⟨text, here, named⟩
    exact Except.bind_eq_ok.2 ⟨_, here, named⟩

theorem nameAndType_eq_ok {name descriptor : String} :
    pool.nameAndType index = .ok (name, descriptor) ↔ ∃ first second,
      pool.entry index = .ok (.nameAndType first second) ∧ pool.utf8 first = .ok name ∧
        pool.utf8 second = .ok descriptor := by
  constructor
  · intro done
    obtain ⟨entry, here, done⟩ := Except.bind_eq_ok.1 done
    cases entry with
    | nameAndType first second =>
      obtain ⟨found, named, done⟩ := Except.bind_eq_ok.1 done
      obtain ⟨type, typed, done⟩ := Except.bind_eq_ok.1 done
      cases done
      exact ⟨first, second, here, named, typed⟩
    | _ => cases done
  · rintro ⟨first, second, here, named, typed⟩
    refine Except.bind_eq_ok.2 ⟨_, here, ?_⟩
    exact Except.bind_eq_ok.2 ⟨_, named, Except.bind_eq_ok.2 ⟨_, typed, rfl⟩⟩

def Points (pool : ConstantPool) (index owner nameType : UInt16) (isInterface : Bool) : Prop :=
  pool.entry index = .ok (.fieldRef owner nameType) ∧ isInterface = false ∨
    pool.entry index = .ok (.methodRef owner nameType) ∧ isInterface = false ∨
      pool.entry index = .ok (.interfaceMethodRef owner nameType) ∧ isInterface = true

theorem memberRef_eq_ok {member : MemberRef} {isInterface : Bool} :
    pool.memberRef index = .ok (member, isInterface) ↔ ∃ owner nameType,
      pool.Points index owner nameType isInterface ∧ pool.className owner = .ok member.owner ∧
        pool.nameAndType nameType = .ok (member.name, member.descriptor) := by
  have follow (owner nameType : UInt16) (flag : Bool) :
      (do
        let owner ← pool.className owner
        let parts ← pool.nameAndType nameType
        return ((⟨owner, parts.1, parts.2⟩ : MemberRef), flag)) = Except.ok (member, isInterface) ↔
      flag = isInterface ∧ pool.className owner = .ok member.owner ∧
        pool.nameAndType nameType = .ok (member.name, member.descriptor) := by
    constructor
    · intro done
      obtain ⟨name, owned, done⟩ := Except.bind_eq_ok.1 done
      obtain ⟨⟨name, descriptor⟩, named, done⟩ := Except.bind_eq_ok.1 done
      cases done
      exact ⟨rfl, owned, named⟩
    · rintro ⟨rfl, owned, named⟩
      exact Except.bind_eq_ok.2 ⟨_, owned, Except.bind_eq_ok.2 ⟨_, named, rfl⟩⟩
  constructor
  · intro done
    obtain ⟨entry, here, done⟩ := Except.bind_eq_ok.1 done
    cases entry with
    | fieldRef owner nameType =>
      obtain ⟨rfl, parts⟩ := (follow owner nameType false).1 done
      exact ⟨owner, nameType, .inl ⟨here, rfl⟩, parts⟩
    | methodRef owner nameType =>
      obtain ⟨rfl, parts⟩ := (follow owner nameType false).1 done
      exact ⟨owner, nameType, .inr (.inl ⟨here, rfl⟩), parts⟩
    | interfaceMethodRef owner nameType =>
      obtain ⟨rfl, parts⟩ := (follow owner nameType true).1 done
      exact ⟨owner, nameType, .inr (.inr ⟨here, rfl⟩), parts⟩
    | _ => cases done
  · rintro ⟨owner, nameType, points, parts⟩
    rcases points with ⟨here, rfl⟩ | ⟨here, rfl⟩ | ⟨here, rfl⟩
    · exact Except.bind_eq_ok.2 ⟨_, here, (follow owner nameType false).2 ⟨rfl, parts⟩⟩
    · exact Except.bind_eq_ok.2 ⟨_, here, (follow owner nameType false).2 ⟨rfl, parts⟩⟩
    · exact Except.bind_eq_ok.2 ⟨_, here, (follow owner nameType true).2 ⟨rfl, parts⟩⟩

theorem methodHandle_eq_ok {handle : MethodHandle} : pool.methodHandle index = .ok handle ↔
    ∃ reference, pool.entry index = .ok (.methodHandle handle.kind reference) ∧
      pool.memberRef reference = .ok (handle.member, handle.isInterface) := by
  constructor
  · intro done
    obtain ⟨entry, here, done⟩ := Except.bind_eq_ok.1 done
    cases entry with
    | methodHandle kind reference =>
      obtain ⟨⟨member, isInterface⟩, named, done⟩ := Except.bind_eq_ok.1 done
      cases done
      exact ⟨reference, here, named⟩
    | _ => cases done
  · rintro ⟨reference, here, named⟩
    exact Except.bind_eq_ok.2 ⟨_, here, Except.bind_eq_ok.2 ⟨_, named, rfl⟩⟩

/-! The same in the other pool. -/

namespace Retold

variable (retold : pool.Retold f other)

include retold

theorem plain {entry : PoolEntry} (found : pool.entry index = .ok entry) (plain : entry.Plain) :
    other.entry index = .ok entry := by
  obtain ⟨again, here, same⟩ := retold.entry found
  rw [here, same.eq_self plain]

theorem utf8 {text : String} (found : pool.utf8 index = .ok text) :
    other.utf8 index = .ok (f text) := by
  obtain ⟨stored, exact, here⟩ := utf8_eq_ok.1 found
  obtain ⟨_, there, again, rfl⟩ := retold.entry here
  exact utf8_eq_ok.2 ⟨stored, again, there⟩

theorem className {name : String} (found : pool.className index = .ok name) :
    other.className index = .ok (f name) := by
  obtain ⟨text, here, named⟩ := className_eq_ok.1 found
  exact className_eq_ok.2 ⟨text, retold.plain here trivial, retold.utf8 named⟩

theorem utf8? {text : Option String} (found : pool.utf8? index = .ok text) :
    other.utf8? index = .ok (text.map f) := by
  unfold ConstantPool.utf8? at found ⊢
  split at found
  case isTrue zero =>
    cases found
    rw [if_pos zero]
    rfl
  case isFalse other =>
    obtain ⟨name, named, rfl⟩ := Except.map_eq_ok.1 found
    rw [if_neg other, retold.utf8 named]
    rfl

theorem className? {name : Option String} (found : pool.className? index = .ok name) :
    other.className? index = .ok (name.map f) := by
  unfold ConstantPool.className? at found ⊢
  split at found
  case isTrue zero =>
    cases found
    rw [if_pos zero]
    rfl
  case isFalse other =>
    obtain ⟨name, named, rfl⟩ := Except.map_eq_ok.1 found
    rw [if_neg other, retold.className named]
    rfl

theorem nameAndType {name descriptor : String}
    (found : pool.nameAndType index = .ok (name, descriptor)) :
    other.nameAndType index = .ok (f name, f descriptor) := by
  obtain ⟨first, second, here, named, typed⟩ := nameAndType_eq_ok.1 found
  exact nameAndType_eq_ok.2
    ⟨first, second, retold.plain here trivial, retold.utf8 named, retold.utf8 typed⟩

theorem memberRef {member : MemberRef} {isInterface : Bool}
    (found : pool.memberRef index = .ok (member, isInterface)) :
    other.memberRef index = .ok (member.mapTexts (.all f), isInterface) := by
  obtain ⟨owner, nameType, points, owned, named⟩ := memberRef_eq_ok.1 found
  refine memberRef_eq_ok.2 ⟨owner, nameType, ?_, retold.className owned, retold.nameAndType named⟩
  exact points.imp (And.imp_left (retold.plain · trivial))
    (Or.imp (And.imp_left (retold.plain · trivial)) (And.imp_left (retold.plain · trivial)))

theorem methodHandle {handle : MethodHandle} (found : pool.methodHandle index = .ok handle) :
    other.methodHandle index = .ok (handle.mapTexts (.all f)) := by
  obtain ⟨reference, here, named⟩ := methodHandle_eq_ok.1 found
  exact methodHandle_eq_ok.2 ⟨reference, retold.plain here trivial, retold.memberRef named⟩

theorem bootstrapMethod {first second : UInt16 → Except FormatError Constant}
    (each : ∀ ⦃index constant⦄, first index = .ok constant →
      second index = .ok (constant.mapTexts (.all f)))
    {row : UInt16} {bootstrap : BootstrapMethod}
    (found : pool.bootstrapMethod first row = .ok bootstrap) :
    other.bootstrapMethod second row = .ok (mapBootstrapTexts (.all f) bootstrap) := by
  unfold ConstantPool.bootstrapMethod at found ⊢
  rw [retold.bootstrap]
  split at found
  · cases found
  case h_2 entry here =>
    obtain ⟨method, handled, found⟩ := Except.bind_eq_ok.1 found
    obtain ⟨arguments, given, found⟩ := Except.bind_eq_ok.1 found
    cases found
    rw [mapBootstrapTexts, Constant.mapTextsList_eq_map]
    exact Except.bind_eq_ok.2 ⟨_, retold.methodHandle handled,
      Except.bind_eq_ok.2 ⟨_, Except.mapM_of_each (fun _ _ _ => @each _ _) given, rfl⟩⟩

theorem constantWithin {limit : Nat} {constant : Constant}
    (found : pool.constantWithin limit index = .ok constant) :
    other.constantWithin limit index = .ok (constant.mapTexts (.all f)) := by
  induction limit using Nat.strong_induction_on generalizing index constant with
  | _ limit ih =>
    rw [ConstantPool.constantWithin] at found ⊢
    obtain ⟨entry, here, found⟩ := Except.bind_eq_ok.1 found
    obtain ⟨again, there, same⟩ := retold.entry here
    refine Except.bind_eq_ok.2 ⟨again, there, ?_⟩
    cases entry with
    | integer _ | float _ | long _ | double _ =>
      cases same
      cases found
      rfl
    | string text | classRef name | methodType descriptor =>
      cases same
      obtain ⟨text, named, found⟩ := Except.bind_eq_ok.1 found
      cases found
      exact Except.bind_eq_ok.2 ⟨_, retold.utf8 named, rfl⟩
    | methodHandle kind reference =>
      cases same
      obtain ⟨handle, handled, found⟩ := Except.bind_eq_ok.1 found
      cases found
      exact Except.bind_eq_ok.2 ⟨_, retold.methodHandle handled, rfl⟩
    | dynamic row nameType =>
      cases same
      cases limit with
      | zero => cases found
      | succ limit =>
        obtain ⟨⟨name, descriptor⟩, named, found⟩ := Except.bind_eq_ok.1 found
        obtain ⟨bootstrap, linked, found⟩ := Except.bind_eq_ok.1 found
        cases found
        have deeper := retold.bootstrapMethod (fun _ _ => ih limit (Nat.lt_succ_self limit)) linked
        exact Except.bind_eq_ok.2 ⟨_, retold.nameAndType named,
          Except.bind_eq_ok.2 ⟨_, deeper, rfl⟩⟩
    | _ => cases found

theorem constant {constant : Constant} (found : pool.constant index = .ok constant) :
    other.constant index = .ok (constant.mapTexts (.all f)) :=
  retold.constantWithin found

theorem invokeDynamic {name descriptor : String} {bootstrap : BootstrapMethod}
    (found : pool.invokeDynamic index = .ok (name, descriptor, bootstrap)) :
    other.invokeDynamic index = .ok (f name, f descriptor, mapBootstrapTexts (.all f) bootstrap) := by
  obtain ⟨entry, here, found⟩ := Except.bind_eq_ok.1 found
  cases entry with
  | invokeDynamic row nameType =>
    obtain ⟨⟨name, descriptor⟩, named, found⟩ := Except.bind_eq_ok.1 found
    obtain ⟨bootstrap, linked, found⟩ := Except.bind_eq_ok.1 found
    cases found
    refine Except.bind_eq_ok.2 ⟨_, retold.plain here trivial, ?_⟩
    exact Except.bind_eq_ok.2 ⟨_, retold.nameAndType named,
      Except.bind_eq_ok.2 ⟨_, retold.bootstrapMethod (fun _ _ => retold.constant) linked, rfl⟩⟩
  | _ => cases found

theorem integer {value : Int32} (found : pool.integer index = .ok value) :
    other.integer index = .ok value := by
  obtain ⟨entry, here, found⟩ := Except.bind_eq_ok.1 found
  cases entry with
  | integer _ => exact Except.bind_eq_ok.2 ⟨_, retold.plain here trivial, found⟩
  | _ => cases found

theorem float {bits : UInt32} (found : pool.float index = .ok bits) :
    other.float index = .ok bits := by
  obtain ⟨entry, here, found⟩ := Except.bind_eq_ok.1 found
  cases entry with
  | float _ => exact Except.bind_eq_ok.2 ⟨_, retold.plain here trivial, found⟩
  | _ => cases found

theorem long {value : Int64} (found : pool.long index = .ok value) :
    other.long index = .ok value := by
  obtain ⟨entry, here, found⟩ := Except.bind_eq_ok.1 found
  cases entry with
  | long _ => exact Except.bind_eq_ok.2 ⟨_, retold.plain here trivial, found⟩
  | _ => cases found

theorem double {bits : UInt64} (found : pool.double index = .ok bits) :
    other.double index = .ok bits := by
  obtain ⟨entry, here, found⟩ := Except.bind_eq_ok.1 found
  cases entry with
  | double _ => exact Except.bind_eq_ok.2 ⟨_, retold.plain here trivial, found⟩
  | _ => cases found

end Retold

def viewed (view : PoolEntry → PoolEntry) (pool : ConstantPool) : ConstantPool :=
  { pool with entries := pool.entries.map view }

theorem viewed_id (pool : ConstantPool) : pool.viewed id = pool := by
  rw [viewed, Array.map_id]

theorem retold_viewed {view : PoolEntry → PoolEntry}
    (each : ∀ entry ∈ pool.entries.toList, entry.Retold f (view entry)) :
    pool.Retold f (pool.viewed view) := by
  refine ⟨fun index entry found => ?_, rfl⟩
  obtain ⟨here, usable⟩ := entry_eq_ok.1 found
  have told := each entry (List.mem_of_getElem? here)
  have there : (pool.viewed view).entries.toList[index.toNat]? = some (view entry) := by
    rw [viewed, Array.toList_map, List.getElem?_map, here]
    rfl
  refine ⟨view entry, entry_eq_ok.2 ⟨there, ?_⟩, told⟩
  cases entry with
  | utf8 text stored exact =>
    obtain ⟨again, same⟩ := told
    rw [same]
    exact nofun
  | _ =>
    rw [told]
    exact usable

theorem ReadsAs.retold {back : String → String} (told : pool.ReadsAs back) :
    pool.Retold back pool.reread := by
  change pool.Retold back (pool.viewed PoolEntry.reread)
  refine retold_viewed fun entry member => ?_
  cases entry with
  | utf8 text stored exact =>
    obtain ⟨again, decoded⟩ := told.text text stored exact member
    exact ⟨again, by rw [PoolEntry.reread, decoded]⟩
  | _ => rfl

end ConstantPool

/-! Reading a class with other eyes: what an entry of its pool says is what a view makes of it. With the
view that leaves every entry alone a class is read as it always is. -/

section Viewed

open Reader

variable (view : PoolEntry → PoolEntry)

def ClassHeader.readAs : Reader (ClassHeader × ConstantPool) := do
  let found ← u4
  if found ≠ magic then throw (.invalidMagic found)
  let minor ← u2
  let major ← u2
  let pool := (← ConstantPool.read).viewed view
  let access ← u2
  let name ← pool.takeClassName
  let superclass ← pool.takeClassName?
  let interfaces ← table pool.takeClassName
  return ({ minor, major, access, name, superclass, interfaces }, pool)

def Skeleton.readAs : Reader Skeleton := do
  let (header, pool) ← ClassHeader.readAs view
  let fields ← table (RawMember.read pool)
  let methods ← table (RawMember.read pool)
  let attributes ← table RawAttribute.read
  return { header, pool, fields, methods, attributes }

def ClassFile.parseAs (bytes : Bytes) : Except FormatError ClassFile := do
  (← (Skeleton.readAs view).all bytes .trailingBytes).decode

theorem ClassFile.parseAs_id : parseAs id = parse := by
  have header : ClassHeader.readAs id = ClassHeader.read := by
    unfold ClassHeader.readAs ClassHeader.read
    simp only [ConstantPool.viewed_id]
  funext bytes
  unfold parseAs parse Skeleton.readAs
  rw [header]
  rfl

end Viewed

end ClassRenaming
