import ClassRenaming.Proofs.MappedBack
import ClassRenaming.Proofs.Retelling
import ClassRenaming.Proofs.RetoldPool

/-!
A class is read back from its bytes. The pool that is read is the one that was written at the end,
and its bootstrap method table is found where the class has its place for it.
-/

namespace ClassRenaming

open Reader

variable {depth : Nat}

def Member.Back (member : Member) (pool : ConstantPool) (bytes : Bytes) : Prop :=
  ∃ raw result, member.ComesBack pool result ∧ Reads (RawMember.read pool) bytes raw ∧
    RawMember.decode pool raw = .ok result

theorem interns_member {member : Member} (proper : Attribute.AllProper depth member.attributes)
    (within : depth ≤ ConstantPool.dynamicDepth) :
    Interns depth member.write member.Back := by
  refine (interns_utf8 _).bind fun name => ?_
  refine (interns_utf8 _).bind fun descriptor => ?_
  have attributes : Interns depth (Attribute.writeAll member.attributes) fun pool bytes =>
      ∃ raws results, Attribute.AllComeBack pool member.attributes results ∧
        Reads (table RawAttribute.read) bytes raws ∧
          raws.mapM (RawAttribute.decode pool) = .ok results := by
    refine (Interns.lift fun count counts _ _ => counts).bind fun count => ?_
    refine (Attribute.interns_list _ proper within).bind fun bytes => ?_
    refine .pure fun pool _ each counts => ?_
    obtain ⟨raws, results, backs, rfl, holds⟩ := each
    have same : raws.length = member.attributes.length := by rw [holds.length_eq, backs.length]
    exact ⟨raws, results, backs, Reads.counted counts (same ▸ RawAttribute.reads_many holds),
      RawAttribute.mapM_decode holds⟩
  refine attributes.bind fun attributes => .pure fun pool _ each typed named => ?_
  obtain ⟨raws, results, backs, reads, decoded⟩ := each
  refine ⟨⟨member.access, member.name, member.descriptor, raws⟩,
    ⟨member.access, member.name, member.descriptor, results⟩, ⟨rfl, rfl, rfl, backs⟩, ?_, ?_⟩
  · simp only [List.append_assoc]
    refine (Reads.u2 _).bind ((reads_takeUtf8 named).bind ((reads_takeUtf8 typed).bind ?_))
    exact reads.last (.pure _)
  · rw [RawMember.decode, decoded]
    rfl

def MembersBack (members : List Member) (pool : ConstantPool) (bytes : Bytes) : Prop :=
  ∃ raws results, List.Forall₂ (Member.ComesBack pool) members results ∧
    Reads (table (RawMember.read pool)) bytes raws ∧
      raws.mapM (RawMember.decode pool) = .ok results

theorem interns_members {members : List Member}
    (proper : ∀ member ∈ members, Attribute.AllProper depth member.attributes)
    (within : depth ≤ ConstantPool.dynamicDepth) :
    Interns depth (writeTable Member.write members) (MembersBack members) := by
  refine (Interns.lift fun count counts _ _ => counts).bind fun count => ?_
  refine (Interns.mapM fun member among => interns_member (proper member among) within).bind
    fun parts => .pure fun pool _ each counts => ?_
  obtain ⟨raws, results, backs, reads, decoded⟩ : ∃ raws results,
      List.Forall₂ (Member.ComesBack pool) members results ∧
        List.Forall₂ (Reads (RawMember.read pool)) parts raws ∧
          raws.mapM (RawMember.decode pool) = .ok results := by
    clear counts proper
    induction each with
    | nil => exact ⟨[], [], .nil, .nil, rfl⟩
    | cons first _ ih =>
      obtain ⟨raws, results, backs, reads, decoded⟩ := ih
      obtain ⟨raw, result, back, read, decode⟩ := first
      refine ⟨raw :: raws, result :: results, .cons back backs, .cons read reads, ?_⟩
      rw [List.mapM_cons, decode, decoded]
      rfl
  have same : raws.length = members.length := by rw [← reads.length_eq, each.length_eq]
  exact ⟨raws, results, backs, Reads.table counts same reads, decoded⟩

/-! The bootstrap method table. -/

theorem reads_words (words : List UInt16) :
    Reads (many words.length Reader.u2) (words.flatMap Bytes.u2) words := by
  induction words with
  | nil => exact .pure _
  | cons word words ih => exact (Reads.u2 word).bind (ih.last (.pure _))

theorem reads_bootstrapEntry {row : BootstrapEntry} {bytes : Bytes} (written : row.write = .ok bytes) :
    Reads BootstrapEntry.read bytes row := by
  obtain ⟨count, counts, written⟩ := Except.bind_eq_ok.1 written
  cases written
  rw [List.append_assoc]
  exact (Reads.u2 _).bind ((Reads.counted counts (reads_words row.arguments)).last (.pure _))

theorem reads_bootstrap {rows : List BootstrapEntry} {info : Bytes}
    (written : writeBootstrap rows = .ok info) : Reads (table BootstrapEntry.read) info rows := by
  obtain ⟨count, counts, written⟩ := Except.bind_eq_ok.1 written
  obtain ⟨parts, each, written⟩ := Except.bind_eq_ok.1 written
  cases written
  exact Reads.table counts rfl
    (Except.forall₂_of_mapM (fun row _ bytes => reads_bootstrapEntry) each)

/-! The attributes of the class. -/

theorem name_ne_bootstrapMethods {item : Attribute} (proper : item.Proper depth)
    (other : item ≠ .bootstrapMethods) : item.name ≠ "BootstrapMethods" := by
  intro same
  cases item with
  | bootstrapMethods => exact other rfl
  | unknown name info =>
    obtain rfl : name = "BootstrapMethods" := same
    exact proper (by simp [Attribute.known])
  | annotations visibility _ =>
    cases visibility <;> simp [Attribute.name, Visibility.annotationsName] at same
  | parameterAnnotations visibility _ =>
    cases visibility <;> simp [Attribute.name, Visibility.parameterAnnotationsName] at same
  | typeAnnotations visibility _ =>
    cases visibility <;> simp [Attribute.name, Visibility.typeAnnotationsName] at same
  | _ => simp [Attribute.name] at same

def RowReads (pool : ConstantPool) : Option (UInt16 × Bytes) → Attribute → Prop
  | none, result => result = .bootstrapMethods
  | some (index, info), result =>
    ∃ name, pool.utf8 index = .ok name ∧ name ≠ "BootstrapMethods" ∧
      ∀ fuel, info.length < fuel → Attribute.read pool fuel name info = .ok result

def ClassRow (pool : ConstantPool) (item : Attribute) (row : Option (UInt16 × Bytes)) : Prop :=
  (item = .bootstrapMethods → row = none) ∧
    ∃ result, item.ComesBack pool result ∧ RowReads pool row result

theorem interns_classAttribute {item : Attribute} (proper : item.Proper depth)
    (within : depth ≤ ConstantPool.dynamicDepth) :
    Interns depth (writeClassAttribute item) fun pool row => ClassRow pool item row := by
  unfold writeClassAttribute
  split
  case h_1 => exact .pure fun pool _ => ⟨fun _ => rfl, .bootstrapMethods, rfl, rfl⟩
  case h_2 other =>
    refine (Attribute.interns_body item proper within).bind fun info => ?_
    refine (interns_utf8 _).bind fun index => .pure fun pool _ named body => ?_
    obtain ⟨result, back, reads⟩ := body
    exact ⟨fun same => absurd same other, result, back, item.name, named,
      name_ne_bootstrapMethods proper other, reads⟩

theorem rows_back {pool : ConstantPool} {attributes : List Attribute}
    {rows : List (Option (UInt16 × Bytes))} (each : List.Forall₂ (ClassRow pool) attributes rows) :
    ∃ results, Attribute.AllComeBack pool attributes results ∧
      List.Forall₂ (RowReads pool) rows results := by
  induction each with
  | nil => exact ⟨[], rfl, .nil⟩
  | cons first _ ih =>
    obtain ⟨-, result, back, reads⟩ := first
    obtain ⟨results, backs, others⟩ := ih
    exact ⟨result :: results, ⟨_, _, rfl, back, backs⟩, .cons reads others⟩

theorem holds_filled {pool : ConstantPool} {rows : List (Option (UInt16 × Bytes))}
    {results : List Attribute} {table : UInt16 × Bytes} {parts : List Bytes}
    (each : List.Forall₂ (RowReads pool) rows results)
    (named : none ∈ rows → pool.utf8 table.1 = .ok "BootstrapMethods")
    (encoded : List.Forall₂ (fun bytes pair => attributeBytes pair.1 pair.2 = .ok bytes) parts
      (rows.map (·.getD table))) :
    ∃ raws, parts.flatten = raws.flatMap RawAttribute.encode ∧
      List.Forall₂ (RawAttribute.Holds pool) raws results ∧
        (none ∈ rows → findBootstrap pool raws =
          (Reader.table BootstrapEntry.read).all table.2 fun _ => .malformed "BootstrapMethods") ∧
        (none ∉ rows → findBootstrap pool raws = .ok []) := by
  induction each generalizing parts with
  | nil =>
    cases encoded
    exact ⟨[], rfl, .nil, fun member => by simp at member, fun _ => rfl⟩
  | @cons row result rows results first _ ih =>
    cases encoded with
    | @cons bytes _ parts _ written encoded =>
      obtain ⟨raws, same, holds, found, absent⟩ :=
        ih (fun member => named (by simp [member])) encoded
      obtain ⟨short, rfl⟩ := RawAttribute.encode_of_attributeBytes written
      cases row with
      | none =>
        obtain rfl : result = .bootstrapMethods := first
        have name := named (by simp)
        refine ⟨⟨table.1, table.2⟩ :: raws, ?_, .cons ⟨short, _, name, ?_⟩ holds, ?_, ?_⟩
        · rw [List.flatten_cons, List.flatMap_cons, same]
          rfl
        · intro fuel enough
          cases fuel with
          | zero => exact absurd enough (Nat.not_lt_zero _)
          | succ fuel => rfl
        · intro _
          rw [findBootstrap, name]
          rfl
        · intro absent
          simp at absent
      | some pair =>
        obtain ⟨name, isName, differs, reads⟩ := first
        have skips : findBootstrap pool (⟨pair.1, pair.2⟩ :: raws) = findBootstrap pool raws := by
          rw [findBootstrap, isName]
          exact if_neg differs
        refine ⟨⟨pair.1, pair.2⟩ :: raws, ?_, .cons ⟨short, _, isName, reads⟩ holds, ?_, ?_⟩
        · rw [List.flatten_cons, List.flatMap_cons, same]
          rfl
        · intro member
          rw [skips]
          exact found (by simpa using member)
        · intro missing
          rw [skips]
          exact absent fun member => missing (by simp [member])

theorem encode_filled {filled : List (UInt16 × Bytes)} {pool next : ConstantPool} {bytes : Bytes}
    (done : (do
      let count ← Bytes.tableCount filled.length
      return count ++ (← filled.mapM fun (name, info) => attributeBytes name info).flatten :
        Interning Bytes) pool = .ok (bytes, next)) :
    pool = next ∧ ∃ count parts, Bytes.tableCount filled.length = .ok count ∧
      bytes = count ++ parts.flatten ∧
        List.Forall₂ (fun bytes pair => attributeBytes pair.1 pair.2 = .ok bytes) parts filled := by
  obtain ⟨count, middle, counted, done⟩ := bind_eq_ok.1 done
  obtain ⟨counts, rfl⟩ := lift_eq_ok.1 counted
  obtain ⟨parts, last, mapped, done⟩ := bind_eq_ok.1 done
  obtain ⟨each, rfl⟩ := mapM_lift_eq_ok (fun pair : UInt16 × Bytes => attributeBytes pair.1 pair.2)
    mapped
  obtain ⟨rfl, rfl⟩ := pure_eq_ok.1 done
  exact ⟨rfl, count, parts, counts, rfl, Except.forall₂_of_mapM (fun _ _ _ written => written) each⟩

theorem filterMap_id_of_all_isSome {α : Type} (default : α) {rows : List (Option α)}
    (closed : rows.all Option.isSome = true) : rows.filterMap id = rows.map (·.getD default) := by
  induction rows with
  | nil => rfl
  | cons row rows ih =>
    rw [List.all_cons, Bool.and_eq_true] at closed
    obtain ⟨value, rfl⟩ := Option.isSome_iff_exists.1 closed.1
    rw [List.filterMap_cons, ih closed.2]
    rfl

def writeFilled (written : List (Option (UInt16 × Bytes))) (rows : List BootstrapEntry) :
    Interning Bytes := do
  let written := if written.all Option.isSome && !rows.isEmpty then written ++ [none] else written
  let filled ←
    if written.all Option.isSome then pure (written.filterMap id)
    else
      let name ← Interning.utf8 "BootstrapMethods"
      let info ← writeBootstrap rows
      pure (written.map (·.getD (name, info)))
  let count ← Bytes.tableCount filled.length
  return count ++ (← filled.mapM fun (name, info) => attributeBytes name info).flatten

theorem writeClassAttributes_eq (attributes : List Attribute) :
    writeClassAttributes attributes = (do
      let written ← attributes.mapM writeClassAttribute
      writeFilled written (← get).bootstrap.toList) := rfl

theorem reads_rows {pool : ConstantPool} {written : List (Option (UInt16 × Bytes))}
    {results : List Attribute} {entry : UInt16 × Bytes} {raws : List RawAttribute} {count : Bytes}
    {parts : List Bytes} (each : List.Forall₂ (RowReads pool) written results)
    (holds : List.Forall₂ (RawAttribute.Holds pool) raws results)
    (counts : Bytes.tableCount (written.map (·.getD entry)).length = .ok count)
    (same : parts.flatten = raws.flatMap RawAttribute.encode) :
    Reads (table RawAttribute.read) (count ++ parts.flatten) raws := by
  rw [List.length_map, each.length_eq, ← holds.length_eq] at counts
  rw [same]
  exact Reads.counted counts (RawAttribute.reads_many holds)

theorem reads_filled {pool next : ConstantPool} {written : List (Option (UInt16 × Bytes))}
    {bytes : Bytes} (sound : pool.Sound) (place : none ∉ written → pool.bootstrap = #[])
    (done : writeFilled written pool.bootstrap.toList pool = .ok (bytes, next)) :
    next.Sound ∧ pool.Grows 0 next ∧ ∀ results, List.Forall₂ (RowReads next) written results →
      ∃ raws, Reads (table RawAttribute.read) bytes raws ∧
        raws.mapM (RawAttribute.decode next) = .ok results ∧
          findBootstrap next raws = .ok next.bootstrap.toList := by
  by_cases placed : none ∈ written
  · have lacking : written.all Option.isSome = false := by
      rw [Bool.eq_false_iff, ne_eq, List.all_eq_true]
      exact fun all => absurd (all none placed) (by simp)
    simp only [writeFilled, lacking, Bool.false_and, Bool.false_eq_true, if_false] at done
    obtain ⟨index, second, here, done⟩ := bind_eq_ok.1 done
    obtain ⟨info, third, lifted, done⟩ := bind_eq_ok.1 done
    obtain ⟨encodes, rfl⟩ := lift_eq_ok.1 lifted
    -- The name of the table is the last that the pool grows by, and no row comes with it.
    obtain ⟨good, grows, named⟩ := (interns_utf8 _ : Interns 0 _ _) sound here
    obtain ⟨rfl, count, parts, counts, rfl, encoded⟩ := encode_filled done
    refine ⟨good, grows, fun results each => ?_⟩
    obtain ⟨raws, same, holds, found, -⟩ :=
      holds_filled each (fun _ => named good (.refl _)) encoded
    refine ⟨raws, reads_rows each holds counts same, RawAttribute.mapM_decode holds, ?_⟩
    rw [found placed, grows.still rfl]
    exact (reads_bootstrap encodes).all
  · have closed : written.all Option.isSome = true := by
      rw [List.all_eq_true]
      intro row member
      cases row with
      | none => exact absurd member placed
      | some pair => rfl
    have ready := place placed
    simp only [writeFilled, closed, ready, List.isEmpty_nil, Bool.not_true, Bool.and_false,
      Bool.false_eq_true, if_false, if_true] at done
    obtain ⟨rfl, count, parts, counts, rfl, encoded⟩ := encode_filled done
    rw [filterMap_id_of_all_isSome (0, []) closed] at counts encoded
    refine ⟨sound, .refl pool, fun results each => ?_⟩
    obtain ⟨raws, same, holds, -, absent⟩ :=
      holds_filled each (fun member => absurd member placed) encoded
    refine ⟨raws, reads_rows each holds counts same, RawAttribute.mapM_decode holds, ?_⟩
    rw [absent placed, ready]

def ClassAttributesBack (attributes : List Attribute) (pool : ConstantPool) (bytes : Bytes) : Prop :=
  ∃ raws results, Attribute.AllComeBack pool attributes results ∧
    Reads (table RawAttribute.read) bytes raws ∧ raws.mapM (RawAttribute.decode pool) = .ok results ∧
      findBootstrap pool raws = .ok pool.bootstrap.toList

theorem none_mem_rows {pool : ConstantPool} {attributes : List Attribute}
    {rows : List (Option (UInt16 × Bytes))} (each : List.Forall₂ (ClassRow pool) attributes rows)
    (placed : .bootstrapMethods ∈ attributes) : none ∈ rows := by
  induction each with
  | nil => cases placed
  | cons first _ ih =>
    rcases List.mem_cons.1 placed with same | later
    · rw [first.1 same.symm]
      exact List.mem_cons_self
    · exact List.mem_cons_of_mem _ (ih later)

theorem writeClassAttributes_back {attributes : List Attribute} {pool next : ConstantPool}
    {bytes : Bytes} (proper : Attribute.AllProper depth attributes)
    (within : depth ≤ ConstantPool.dynamicDepth)
    (place : depth ≠ 0 → .bootstrapMethods ∈ attributes) (sound : pool.Sound)
    (empty : depth = 0 → pool.bootstrap = #[])
    (done : writeClassAttributes attributes pool = .ok (bytes, next)) :
    next.Sound ∧ pool.Grows depth next ∧ ClassAttributesBack attributes next bytes := by
  rw [writeClassAttributes_eq] at done
  obtain ⟨rows, first, mapped, done⟩ := bind_eq_ok.1 done
  obtain ⟨sound, grows, each⟩ := Interns.mapM (fun item member => interns_classAttribute
    (proper.of_mem member) within) sound mapped
  obtain ⟨current, middle, got, done⟩ := bind_eq_ok.1 done
  cases got
  have bare : none ∉ rows → first.bootstrap = #[] := by
    intro closed
    have zero : depth = 0 := by
      by_contra deep
      exact closed (none_mem_rows (each sound (.refl _)) (place deep))
    exact (grows.still zero).trans (empty zero)
  obtain ⟨good, still, reads⟩ := reads_filled sound bare done
  have more : first.Grows depth next := still.anyDepth
  obtain ⟨results, backs, each⟩ := rows_back (each good more)
  obtain ⟨raws, read, decoded, found⟩ := reads results each
  exact ⟨good, grows.trans more, raws, results, backs, read, decoded, found⟩

/-! The class as a whole. -/

/-- A class as one is read, with a place for a bootstrap method table if constants may nest. -/
structure ClassModel.Proper (depth : Nat) (model : ClassModel) : Prop where
  fields : ∀ member ∈ model.fields, Attribute.AllProper depth member.attributes
  methods : ∀ member ∈ model.methods, Attribute.AllProper depth member.attributes
  attributes : Attribute.AllProper depth model.attributes
  place : depth ≠ 0 → .bootstrapMethods ∈ model.attributes

theorem ClassHeader.reads {header : ClassHeader} {pool : ConstantPool}
    {view : PoolEntry → PoolEntry} {f : String → String} {name superclass : UInt16}
    {interfaces : Bytes} (sound : pool.Sound) (retold : pool.Retold f (pool.reread.viewed view))
    (named : pool.className name = .ok header.name)
    (extended : pool.className? superclass = .ok header.superclass)
    (implemented : Reads (table pool.takeClassName) interfaces header.interfaces) :
    Reads (readAs view) (Bytes.u4 magic ++ (Bytes.u2 header.minor ++ (Bytes.u2 header.major ++
      (pool.encode ++ (Bytes.u2 header.access ++ (Bytes.u2 name ++ (Bytes.u2 superclass ++
        interfaces)))))))
      (header.mapTexts (.all f), { pool.reread.viewed view with bootstrap := #[] }) := by
  refine (Reads.u4 magic).bind ?_
  refine (Reads.u2 _).bind ((Reads.u2 _).bind ((ConstantPool.reads_encode sound).bind ?_))
  refine (Reads.u2 _).bind ((reads_takeClassName (retold.className named)).bind ?_)
  refine Reads.bind ((Reads.u2 _).last (.lift (retold.className? extended))) ?_
  have others : Reads (table (pool.reread.viewed view).takeClassName) interfaces
      (header.interfaces.map f) := implemented.retold retold.takeClassName.table
  exact others.last (.pure _)

theorem Skeleton.reads {header : ClassHeader} {pool : ConstantPool} {view : PoolEntry → PoolEntry}
    {front fields methods attributes : Bytes} {rawFields rawMethods : List RawMember}
    {rawAttributes : List RawAttribute}
    (readFront : Reads (ClassHeader.readAs view) front (header, { pool with bootstrap := #[] }))
    (readFields : Reads (table (RawMember.read pool)) fields rawFields)
    (readMethods : Reads (table (RawMember.read pool)) methods rawMethods)
    (readAttributes : Reads (table RawAttribute.read) attributes rawAttributes) :
    Reads (readAs view) (front ++ (fields ++ (methods ++ attributes)))
      ⟨header, { pool with bootstrap := #[] }, rawFields, rawMethods, rawAttributes⟩ := by
  refine readFront.bind ?_
  refine readFields.bind (readMethods.bind ?_)
  exact readAttributes.last (.pure _)

theorem findBootstrap_bare (pool : ConstantPool) (raws : List RawAttribute) :
    findBootstrap { pool with bootstrap := #[] } raws = findBootstrap pool raws := by
  induction raws with
  | nil => rfl
  | cons raw rest ih =>
    rw [findBootstrap, findBootstrap, ih]
    rfl

theorem Skeleton.decode_eq {header : ClassHeader} {pool : ConstantPool}
    {rawFields rawMethods : List RawMember} {fields methods : List Member}
    {rawAttributes : List RawAttribute} {attributes : List Attribute}
    (found : findBootstrap pool rawAttributes = .ok pool.bootstrap.toList)
    (decodedFields : rawFields.mapM (RawMember.decode pool) = .ok fields)
    (decodedMethods : rawMethods.mapM (RawMember.decode pool) = .ok methods)
    (decodedAttributes : rawAttributes.mapM (RawAttribute.decode pool) = .ok attributes) :
    decode ⟨header, { pool with bootstrap := #[] }, rawFields, rawMethods, rawAttributes⟩ =
      .ok ⟨{ header with fields, methods, attributes }, pool⟩ := by
  refine Except.bind_eq_ok.2 ⟨_, (findBootstrap_bare pool rawAttributes).trans found, ?_⟩
  simp only [Array.toArray_toList]
  refine Except.bind_eq_ok.2 ⟨fields, decodedFields, ?_⟩
  refine Except.bind_eq_ok.2 ⟨methods, decodedMethods, ?_⟩
  exact Except.bind_eq_ok.2 ⟨attributes, decodedAttributes, rfl⟩

theorem MembersBack.retold {members : List Member} {pool other : ConstantPool} {bytes : Bytes}
    {f : String → String} (kind : Signature.Kind) (members_back : MembersBack members pool bytes)
    (retold : pool.Retold f other) (keeps : KeepsKnown f) :
    ∃ raws results, List.Forall₂ (Member.ComesBack other)
      (members.map (Member.mapTexts (.all f) kind)) results ∧
        Reads (table (RawMember.read other)) bytes raws ∧
          raws.mapM (RawMember.decode other) = .ok results := by
  obtain ⟨raws, results, backs, reads, decoded⟩ := members_back
  refine ⟨raws.map (RawMember.mapTexts f), results.map (Member.mapTexts (.all f) kind), ?_,
    reads.retold (retells_rawMember retold).table, RawMember.mapM_retold retold keeps kind decoded⟩
  exact List.forall₂_map_left_iff.2 (List.forall₂_map_right_iff.2
    (backs.imp fun _ _ here => here.mapTexts retold kind))

theorem ClassFile.parseAs_of_write {model : ClassModel} {pool last : ConstantPool} {body : Bytes}
    (proper : model.Proper depth) (within : depth ≤ ConstantPool.dynamicDepth) (sound : pool.Sound)
    (empty : depth = 0 → pool.bootstrap = #[]) (written : model.write pool = .ok (body, last)) :
    last.Sound ∧ pool.Grows depth last ∧
      ∀ {view f}, last.Retold f (last.reread.viewed view) → KeepsKnown f →
        ∃ result, parseAs view (Bytes.u4 magic ++ Bytes.u2 model.minor ++ Bytes.u2 model.major ++
            last.encode ++ body) = .ok ⟨result, last.reread.viewed view⟩ ∧
          (model.mapTexts (.all f)).ComesBack (last.reread.viewed view) result := by
  obtain ⟨name, first, here, written⟩ := bind_eq_ok.1 written
  obtain ⟨superclass, second, above, written⟩ := bind_eq_ok.1 written
  obtain ⟨interfaces, third, beside, written⟩ := bind_eq_ok.1 written
  obtain ⟨fields, fourth, inside, written⟩ := bind_eq_ok.1 written
  obtain ⟨methods, fifth, below, written⟩ := bind_eq_ok.1 written
  obtain ⟨attributes, final, there, written⟩ := bind_eq_ok.1 written
  obtain ⟨rfl, rfl⟩ := pure_eq_ok.1 written
  obtain ⟨sound, grows₁, named⟩ := interns_className _ sound here
  obtain ⟨sound, grows₂, extended⟩ := Attribute.interns_className? _ sound above
  obtain ⟨sound, grows₃, implemented⟩ := Attribute.interns_classNames _ sound beside
  obtain ⟨sound, grows₄, hasFields⟩ := interns_members proper.fields within sound inside
  obtain ⟨sound, grows₅, hasMethods⟩ := interns_members proper.methods within sound below
  have still : depth = 0 → fifth.bootstrap = #[] := by
    intro zero
    have grows := (((grows₁.trans grows₂).trans grows₃).trans grows₄).trans grows₅
    exact (grows.still zero).trans (empty zero)
  obtain ⟨sound, grows₆, hasAttributes⟩ :=
    writeClassAttributes_back proper.attributes within proper.place sound still there
  have fromSecond := ((grows₃.trans grows₄).trans grows₅).trans grows₆
  refine ⟨sound, (grows₁.trans grows₂).trans fromSecond, fun {view f} retold keeps => ?_⟩
  obtain ⟨rawFields, newFields, backFields, readFields, decodedFields⟩ :=
    (hasFields sound (grows₅.trans grows₆)).retold .field retold keeps
  obtain ⟨rawMethods, newMethods, backMethods, readMethods, decodedMethods⟩ :=
    (hasMethods sound grows₆).retold .method retold keeps
  obtain ⟨rawAttributes, newAttributes, backAttributes, readAttributes, decodedAttributes, found⟩ :=
    hasAttributes
  have front := ClassHeader.reads sound retold (named sound (grows₂.trans fromSecond))
    (extended sound fromSecond) (implemented sound ((grows₄.trans grows₅).trans grows₆))
  have reads := Skeleton.reads front readFields readMethods readAttributes
  simp only [List.append_assoc] at reads
  have decodedAgain : rawAttributes.mapM (RawAttribute.decode (final.reread.viewed view)) =
      .ok (newAttributes.map (Attribute.mapTexts (.all f) .type)) :=
    Except.mapM_of_each (fun raw _ _ here => raw.decode_retold retold keeps .type here)
      decodedAttributes
  refine ⟨⟨model.toClassHeader.mapTexts (.all f), newFields, newMethods,
    newAttributes.map (Attribute.mapTexts (.all f) .type)⟩, ?_, ⟨rfl, backFields, backMethods, ?_⟩⟩
  · simp only [parseAs, List.append_assoc, reads.all]
    exact Skeleton.decode_eq (findBootstrap_retold retold keeps found) decodedFields decodedMethods
      decodedAgain
  · rw [← Attribute.mapTextsList_eq_map]
    exact Attribute.AllComeBack.mapTexts retold .type backAttributes

theorem ClassFile.parse_of_proper {file : ClassFile} {bytes : Bytes}
    (proper : file.model.Proper depth) (within : depth ≤ ConstantPool.dynamicDepth)
    (sound : file.pool.Sound) (empty : depth = 0 → file.pool.bootstrap = #[])
    (done : file.toBytes = .ok bytes) :
    ∃ result back, parse bytes = .ok result ∧
      (∀ text, back text = text ∨ back text = ModifiedUtf8.recoded text) ∧
        (file.model.mapTexts (.all back)).ComesBack result.pool result.model ∧
          file.pool.bootstrap.toList <+: result.pool.bootstrap.toList := by
  obtain ⟨⟨body, pool⟩, written, done⟩ := Except.bind_eq_ok.1 done
  cases done
  obtain ⟨sound, grows, reads⟩ := parseAs_of_write proper within sound empty written
  obtain ⟨back, told⟩ := sound.texts
  have retold := told.retold
  rw [← ConstantPool.viewed_id pool.reread] at retold
  obtain ⟨result, read, comes⟩ := reads retold (keepsKnown_of_near told.near)
  rw [parseAs_id] at read
  exact ⟨_, back, read, told.near, comes, grows.rows⟩

end ClassRenaming
