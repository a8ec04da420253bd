import ClassRenaming.Proofs.MovedAgain
import ClassRenaming.Proofs.ReadTexts
import ClassRenaming.Proofs.StoredClasses

/-!
Writing a class file and reading it reaches a fixed point in one step. The first time, constants get
longer opcodes, offsets move, and the pool grows by what it lacked; what is read from these bytes is
written where all of it is in place already.
-/

namespace ClassRenaming

open Reader

variable {depth : Nat} {pool : ConstantPool}

/-! Attributes, where writing them adds nothing. -/

namespace Attribute

def BodyAgain (item : Attribute) (pool : ConstantPool) (info : Bytes) : Prop :=
  ∃ result, result.name = item.name ∧
    (∀ fuel, info.length < fuel → Attribute.read pool fuel item.name info = .ok result) ∧
      result.writeBody pool = .ok (info, pool)

theorem bodyAgain_of_back {item result : Attribute} (proper : item.Proper depth)
    (within : depth ≤ ConstantPool.dynamicDepth) (sound : pool.Sound) {info : Bytes}
    (done : item.writeBody pool = .ok (info, pool))
    (back : ∀ other, item.ComesBack pool other → other = result)
    (named : result.name = item.name) (same : result.writeBody = item.writeBody) :
    item.BodyAgain pool info := by
  obtain ⟨other, comes, reads⟩ := (interns_body item proper within).settled sound done
  obtain rfl := back other comes
  refine ⟨other, named, reads, ?_⟩
  rw [same, done]

mutual

theorem settled_body : ∀ item : Attribute, item.Proper depth →
    depth ≤ ConstantPool.dynamicDepth → pool.Sound → ∀ {info : Bytes},
    item.writeBody pool = .ok (info, pool) → item.BodyAgain pool info
  | .constantValue constant, proper, within, sound, _, done => by
    refine bodyAgain_of_back proper within sound done (fun _ back => back) rfl ?_
    rw [writeBody, writeBody, constant_normal]
  | .code body, proper, within, sound, _, done => by
    obtain ⟨result, read, again⟩ := Code.settled proper within sound done
    refine ⟨.code result, rfl, fun fuel enough => ?_, again⟩
    cases fuel with
    | zero => exact absurd enough (Nat.not_lt_zero _)
    | succ fuel =>
      change code <$> Code.read pool _ = _
      rw [read]
      rfl
  | .record components, proper, within, sound, _, done => by
    rw [writeBody] at done
    obtain ⟨count, _, lifted, done⟩ := bind_eq_ok.1 done
    obtain ⟨counts, rfl⟩ := lift_eq_ok.1 lifted
    obtain ⟨bytes, last, listed, done⟩ := bind_eq_ok.1 done
    obtain ⟨rfl, here⟩ := pure_eq_ok.1 done
    subst last
    obtain ⟨results, length, reads, again⟩ := settled_components components proper within sound listed
    refine ⟨.record results, rfl, fun fuel => read_record counts reads, ?_⟩
    rw [writeBody]
    refine bind_eq_ok.2 ⟨count, _, lift_eq_ok.2 ⟨length ▸ counts, rfl⟩, ?_⟩
    exact bind_eq_ok.2 ⟨bytes, _, again, rfl⟩
  | .signature _, proper, within, sound, _, done
  | .exceptions _, proper, within, sound, _, done
  | .annotations _ _, proper, within, sound, _, done
  | .parameterAnnotations _ _, proper, within, sound, _, done
  | .typeAnnotations _ _, proper, within, sound, _, done
  | .annotationDefault _, proper, within, sound, _, done
  | .innerClasses _, proper, within, sound, _, done
  | .enclosingMethod _ _, proper, within, sound, _, done
  | .nestHost _, proper, within, sound, _, done
  | .nestMembers _, proper, within, sound, _, done
  | .permittedSubclasses _, proper, within, sound, _, done
  | .bootstrapMethods, proper, within, sound, _, done
  | .unknown _ _, proper, within, sound, _, done =>
    bodyAgain_of_back proper within sound done (fun _ back => back) rfl rfl

theorem settled_components : ∀ components : List (RecordComponent Attribute),
    ComponentsProper depth components → depth ≤ ConstantPool.dynamicDepth → pool.Sound →
    ∀ {bytes : Bytes}, writeComponents components pool = .ok (bytes, pool) →
    ∃ results, results.length = components.length ∧
      (∀ fuel, bytes.length ≤ fuel →
        Reads (many components.length (readComponent pool fuel)) bytes results) ∧
        writeComponents results pool = .ok (bytes, pool)
  | [], _, _, _, _, done => by
    obtain ⟨rfl, -⟩ := pure_eq_ok.1 done
    exact ⟨[], rfl, fun fuel _ => .pure _, rfl⟩
  | ⟨name, descriptor, attributes⟩ :: rest, proper, within, sound, _, done => by
    rw [writeComponents] at done
    obtain ⟨first, afterName, named, done⟩ := bind_eq_ok.1 done
    obtain ⟨second, afterType, typed, done⟩ := bind_eq_ok.1 done
    obtain ⟨count, _, lifted, done⟩ := bind_eq_ok.1 done
    obtain ⟨counts, rfl⟩ := lift_eq_ok.1 lifted
    obtain ⟨bytes, afterList, listed, done⟩ := bind_eq_ok.1 done
    obtain ⟨later, last, others, done⟩ := bind_eq_ok.1 done
    obtain ⟨rfl, here⟩ := pure_eq_ok.1 done
    subst last
    -- Nothing is added, so every part is written into the pool at the end.
    obtain ⟨-, named⟩ := repeats_utf8 (f := id) rfl named
    obtain ⟨grows₁, typed⟩ := repeats_utf8 (f := id) rfl typed
    obtain ⟨grows₂, listed⟩ := repeats_list .id .field attributes
      (mapTextsList_eq_self .field attributes fun _ _ => rfl) listed
    obtain ⟨grows₃, others⟩ := repeats_components .id rest
      (mapTextsComponents_eq_self rest fun _ _ => rfl) others
    replace named := named ((grows₁.trans grows₂).trans grows₃)
    replace typed := typed (grows₂.trans grows₃)
    replace listed := listed grows₃
    replace others := others (.refl _)
    obtain ⟨raws, items, length, rfl, holds, again⟩ :=
      settled_list attributes proper.1 within sound listed
    obtain ⟨results, lengths, reads, anew⟩ := settled_components rest proper.2 within sound others
    rw [← length] at counts
    refine ⟨⟨name, descriptor, items⟩ :: results, congrArg Nat.succ lengths, fun fuel enough => ?_, ?_⟩
    · simp only [List.length_append] at enough
      have component := reads_component ((interns_utf8 _ : Interns 0 _ _).settled sound named)
        ((interns_utf8 _ : Interns 0 _ _).settled sound typed) counts holds
        (by omega : (raws.flatMap RawAttribute.encode).length ≤ fuel)
      exact component.bind ((reads fuel (by omega)).last (.pure _))
    · rw [writeComponents]
      refine bind_eq_ok.2 ⟨first, _, named, bind_eq_ok.2 ⟨second, _, typed, ?_⟩⟩
      refine bind_eq_ok.2 ⟨count, _, lift_eq_ok.2 ⟨counts, rfl⟩, ?_⟩
      exact bind_eq_ok.2 ⟨_, _, again, bind_eq_ok.2 ⟨later, _, anew, rfl⟩⟩

theorem settled_list : ∀ attributes : List Attribute, AllProper depth attributes →
    depth ≤ ConstantPool.dynamicDepth → pool.Sound →
    ∀ {bytes : Bytes}, writeList attributes pool = .ok (bytes, pool) →
    ∃ raws results, results.length = attributes.length ∧ bytes = raws.flatMap RawAttribute.encode ∧
      List.Forall₂ (RawAttribute.Holds pool) raws results ∧
        writeList results pool = .ok (bytes, pool)
  | [], _, _, _, _, done => by
    obtain ⟨rfl, -⟩ := pure_eq_ok.1 done
    exact ⟨[], [], rfl, rfl, .nil, rfl⟩
  | item :: rest, proper, within, sound, _, done => by
    rw [writeList] at done
    obtain ⟨info, afterBody, body, done⟩ := bind_eq_ok.1 done
    obtain ⟨index, afterName, named, done⟩ := bind_eq_ok.1 done
    obtain ⟨bytes, _, lifted, done⟩ := bind_eq_ok.1 done
    obtain ⟨encoded, rfl⟩ := lift_eq_ok.1 lifted
    obtain ⟨later, last, others, done⟩ := bind_eq_ok.1 done
    obtain ⟨rfl, here⟩ := pure_eq_ok.1 done
    subst last
    obtain ⟨-, body⟩ := repeats_body .id .field item (mapTexts_eq_self .field item fun _ _ => rfl) body
    obtain ⟨grows₁, named⟩ := repeats_utf8 (f := id) rfl named
    obtain ⟨grows₂, others⟩ := repeats_list .id .field rest
      (mapTextsList_eq_self .field rest fun _ _ => rfl) others
    replace body := body (grows₁.trans grows₂)
    replace named := named grows₂
    replace others := others (.refl _)
    obtain ⟨result, same, reads, again⟩ := settled_body item proper.1 within sound body
    obtain ⟨raws, results, length, rfl, holds, anew⟩ :=
      settled_list rest proper.2 within sound others
    obtain ⟨short, rfl⟩ := RawAttribute.encode_of_attributeBytes encoded
    refine ⟨⟨index, info⟩ :: raws, result :: results, congrArg Nat.succ length, rfl,
      .cons ⟨short, _, (interns_utf8 _ : Interns 0 _ _).settled sound named, reads⟩ holds, ?_⟩
    rw [writeList]
    rw [← same] at named
    refine bind_eq_ok.2 ⟨info, _, again, bind_eq_ok.2 ⟨index, _, named, ?_⟩⟩
    refine bind_eq_ok.2 ⟨_, _, lift_eq_ok.2 ⟨encoded, rfl⟩, ?_⟩
    exact bind_eq_ok.2 ⟨_, _, anew, rfl⟩

end

end Attribute

/-! Members, where writing them adds nothing. -/

theorem settled_attributes {attributes : List Attribute}
    (proper : Attribute.AllProper depth attributes) (within : depth ≤ ConstantPool.dynamicDepth)
    (sound : pool.Sound) {bytes : Bytes}
    (done : Attribute.writeAll attributes pool = .ok (bytes, pool)) :
    ∃ raws results, Reads (table RawAttribute.read) bytes raws ∧
      raws.mapM (RawAttribute.decode pool) = .ok results ∧
        Attribute.writeAll results pool = .ok (bytes, pool) := by
  obtain ⟨count, _, lifted, done⟩ := bind_eq_ok.1 done
  obtain ⟨counts, rfl⟩ := lift_eq_ok.1 lifted
  obtain ⟨parts, last, listed, done⟩ := bind_eq_ok.1 done
  obtain ⟨rfl, rfl⟩ := pure_eq_ok.1 done
  obtain ⟨raws, results, length, rfl, holds, again⟩ :=
    Attribute.settled_list attributes proper within sound listed
  rw [← length] at counts
  refine ⟨raws, results, ?_, RawAttribute.mapM_decode holds, ?_⟩
  · exact Reads.counted (holds.length_eq ▸ counts) (RawAttribute.reads_many holds)
  · exact bind_eq_ok.2 ⟨count, _, lift_eq_ok.2 ⟨counts, rfl⟩, bind_eq_ok.2 ⟨_, _, again, rfl⟩⟩

theorem settled_member {member : Member} (proper : Attribute.AllProper depth member.attributes)
    (within : depth ≤ ConstantPool.dynamicDepth) (sound : pool.Sound) {bytes : Bytes}
    (done : member.write pool = .ok (bytes, pool)) :
    ∃ raw result, Reads (RawMember.read pool) bytes raw ∧ RawMember.decode pool raw = .ok result ∧
      result.write pool = .ok (bytes, pool) := by
  obtain ⟨name, afterName, named, done⟩ := bind_eq_ok.1 done
  obtain ⟨descriptor, afterType, typed, done⟩ := bind_eq_ok.1 done
  obtain ⟨attributes, last, listed, done⟩ := bind_eq_ok.1 done
  obtain ⟨rfl, rfl⟩ := pure_eq_ok.1 done
  obtain ⟨-, named⟩ := repeats_utf8 (f := id) rfl named
  obtain ⟨grows₁, typed⟩ := repeats_utf8 (f := id) rfl typed
  obtain ⟨grows₂, listed⟩ := repeats_attributes .id .field
    (Attribute.mapTextsList_eq_self .field member.attributes fun _ _ => rfl) listed
  replace named := named (grows₁.trans grows₂)
  replace typed := typed grows₂
  replace listed := listed (.refl _)
  obtain ⟨raws, results, reads, decoded, again⟩ := settled_attributes proper within sound listed
  refine ⟨⟨member.access, member.name, member.descriptor, raws⟩,
    ⟨member.access, member.name, member.descriptor, results⟩, ?_, ?_, ?_⟩
  · simp only [List.append_assoc]
    refine (Reads.u2 _).bind ?_
    refine (reads_takeUtf8 ((interns_utf8 _ : Interns 0 _ _).settled sound named)).bind ?_
    refine (reads_takeUtf8 ((interns_utf8 _ : Interns 0 _ _).settled sound typed)).bind ?_
    exact reads.last (.pure _)
  · rw [RawMember.decode, decoded]
    rfl
  · refine bind_eq_ok.2 ⟨name, _, named, bind_eq_ok.2 ⟨descriptor, _, typed, ?_⟩⟩
    exact bind_eq_ok.2 ⟨attributes, _, again, rfl⟩

theorem settled_parts {members : List Member} {parts : List Bytes}
    (proper : ∀ member ∈ members, Attribute.AllProper depth member.attributes)
    (within : depth ≤ ConstantPool.dynamicDepth) (sound : pool.Sound)
    (each : List.Forall₂ (fun member part => member.write pool = .ok (part, pool)) members parts) :
    ∃ raws results, List.Forall₂ (Reads (RawMember.read pool)) parts raws ∧
      raws.mapM (RawMember.decode pool) = .ok results ∧
        List.Forall₂ (fun member part => member.write pool = .ok (part, pool)) results parts := by
  induction each with
  | nil => exact ⟨[], [], .nil, rfl, .nil⟩
  | @cons member part members parts first _ ih =>
    obtain ⟨raws, results, reads, decoded, again⟩ :=
      ih fun other among => proper other (by simp [among])
    obtain ⟨raw, result, read, decode, anew⟩ :=
      settled_member (proper member (by simp)) within sound first
    refine ⟨raw :: raws, result :: results, .cons read reads, ?_, .cons anew again⟩
    rw [List.mapM_cons, decode, decoded]
    rfl

theorem settled_members {members : List Member}
    (proper : ∀ member ∈ members, Attribute.AllProper depth member.attributes)
    (within : depth ≤ ConstantPool.dynamicDepth) (sound : pool.Sound) {bytes : Bytes}
    (done : writeTable Member.write members pool = .ok (bytes, pool)) :
    ∃ raws results, Reads (table (RawMember.read pool)) bytes raws ∧
      raws.mapM (RawMember.decode pool) = .ok results ∧
        writeTable Member.write results pool = .ok (bytes, pool) := by
  obtain ⟨count, _, lifted, done⟩ := bind_eq_ok.1 done
  obtain ⟨counts, rfl⟩ := lift_eq_ok.1 lifted
  obtain ⟨parts, last, listed, done⟩ := bind_eq_ok.1 done
  obtain ⟨rfl, rfl⟩ := pure_eq_ok.1 done
  have each := Repeats.each (f := id) (fun member _ => repeats_member .id .field
    (member.mapTexts_eq_self .field fun _ _ => rfl)) listed
  obtain ⟨raws, results, reads, decoded, again⟩ := settled_parts proper within sound each
  have length : members.length = results.length := by rw [each.length_eq, ← again.length_eq]
  refine ⟨raws, results, Reads.table counts ?_ reads, decoded, ?_⟩
  · rw [← reads.length_eq, each.length_eq]
  · rw [length] at counts
    refine bind_eq_ok.2 ⟨count, _, lift_eq_ok.2 ⟨counts, rfl⟩, ?_⟩
    exact bind_eq_ok.2 ⟨parts, _, mapM_settled again, rfl⟩

/-! The attributes of a class. -/

theorem repeats_filled {f : String → String} (keeps : KeepsKnown f)
    (written : List (Option (UInt16 × Bytes))) (rows : List BootstrapEntry) :
    Repeats f (writeFilled written rows) := by
  have name : f "BootstrapMethods" = "BootstrapMethods" :=
    keeps.known _ (by simp [Attribute.known])
  have encodes : ∀ filled : List (UInt16 × Bytes), Repeats f (do
      let count ← Bytes.tableCount filled.length
      return count ++ (← filled.mapM fun row => attributeBytes row.1 row.2).flatten) :=
    fun filled => (Repeats.lift _).bind fun _ => (Repeats.mapM fun _ _ => .lift _).bind fun _ =>
      .pure _
  unfold writeFilled
  dsimp only
  generalize (if (written.all Option.isSome && !rows.isEmpty) = true then written ++ [none]
    else written) = places
  split
  · exact (Repeats.pure _).bind encodes
  · exact (repeats_utf8 name).bind fun _ => (Repeats.lift _).bind fun _ =>
      (Repeats.pure _).bind encodes

theorem settled_classAttribute {item : Attribute} (proper : item.Proper depth)
    (within : depth ≤ ConstantPool.dynamicDepth) (sound : pool.Sound)
    {row : Option (UInt16 × Bytes)} (done : writeClassAttribute item pool = .ok (row, pool)) :
    ∃ result, RowReads pool row result ∧ writeClassAttribute result pool = .ok (row, pool) := by
  by_cases place : item = .bootstrapMethods
  · subst place
    obtain ⟨rfl, -⟩ := pure_eq_ok.1 done
    exact ⟨.bootstrapMethods, rfl, rfl⟩
  have other : ∀ {kept : Attribute}, kept ≠ .bootstrapMethods →
      writeClassAttribute kept = (do
        let info ← kept.writeBody
        let name ← Interning.utf8 kept.name
        return some (name, info)) := by
    intro kept differs
    cases kept with
    | bootstrapMethods => exact absurd rfl differs
    | _ => rfl
  rw [other place] at done
  obtain ⟨info, middle, body, done⟩ := bind_eq_ok.1 done
  obtain ⟨index, last, named, done⟩ := bind_eq_ok.1 done
  obtain ⟨rfl, rfl⟩ := pure_eq_ok.1 done
  obtain ⟨-, body⟩ := repeats_body .id .type item (item.mapTexts_eq_self .type fun _ _ => rfl) body
  obtain ⟨grows, named⟩ := repeats_utf8 (f := id) rfl named
  replace body := body grows
  replace named := named (.refl _)
  obtain ⟨result, same, reads, again⟩ := Attribute.settled_body item proper within sound body
  have differs := name_ne_bootstrapMethods proper place
  refine ⟨result, ⟨item.name, (interns_utf8 _ : Interns 0 _ _).settled sound named, differs, reads⟩, ?_⟩
  have still : result ≠ .bootstrapMethods := by
    rintro rfl
    exact differs same.symm
  rw [other still, same]
  exact bind_eq_ok.2 ⟨info, _, again, bind_eq_ok.2 ⟨index, _, named, rfl⟩⟩

theorem settled_rows {attributes : List Attribute} {rows : List (Option (UInt16 × Bytes))}
    (proper : Attribute.AllProper depth attributes) (within : depth ≤ ConstantPool.dynamicDepth)
    (sound : pool.Sound)
    (each : List.Forall₂ (fun item row => writeClassAttribute item pool = .ok (row, pool)) attributes
      rows) :
    ∃ results, List.Forall₂ (RowReads pool) rows results ∧
      List.Forall₂ (fun item row => writeClassAttribute item pool = .ok (row, pool)) results rows := by
  induction each with
  | nil => exact ⟨[], .nil, .nil⟩
  | cons here _ ih =>
    obtain ⟨result, read, anew⟩ := settled_classAttribute proper.1 within sound here
    obtain ⟨results, reads, again⟩ := ih proper.2
    exact ⟨result :: results, .cons read reads, .cons anew again⟩

theorem settled_classAttributes {attributes : List Attribute}
    (proper : Attribute.AllProper depth attributes) (within : depth ≤ ConstantPool.dynamicDepth)
    (place : depth ≠ 0 → .bootstrapMethods ∈ attributes) (sound : pool.Sound)
    (empty : depth = 0 → pool.bootstrap = #[]) {bytes : Bytes}
    (done : writeClassAttributes attributes pool = .ok (bytes, pool)) :
    ∃ raws results, Reads (table RawAttribute.read) bytes raws ∧
      raws.mapM (RawAttribute.decode pool) = .ok results ∧
        findBootstrap pool raws = .ok pool.bootstrap.toList ∧
          writeClassAttributes results pool = .ok (bytes, pool) := by
  have repeats : ∀ item ∈ attributes, Repeats id (writeClassAttribute item) := fun item _ =>
    repeats_classAttribute .id .type (item.mapTexts_eq_self .type fun _ _ => rfl)
  rw [writeClassAttributes_eq] at done
  obtain ⟨rows, first, mapped, done⟩ := bind_eq_ok.1 done
  obtain ⟨current, middle, got, done⟩ := bind_eq_ok.1 done
  cases got
  -- The pool has not grown yet when the table is looked at, so it is the table at the end.
  obtain rfl := (Repeats.mapM repeats mapped).1.antisymm (repeats_filled .id _ _ done).1
  have each := (Interns.mapM fun item member => interns_classAttribute (proper.of_mem member)
    within).settled sound mapped
  have bare : none ∉ rows → pool.bootstrap = #[] := by
    intro closed
    refine empty ?_
    by_contra deep
    exact closed (none_mem_rows each (place deep))
  obtain ⟨results, reads, again⟩ :=
    settled_rows proper within sound (Repeats.each repeats mapped)
  obtain ⟨raws, read, decoded, found⟩ := (reads_filled sound bare done).2.2 results reads
  refine ⟨raws, results, read, decoded, found, ?_⟩
  rw [writeClassAttributes_eq]
  exact bind_eq_ok.2 ⟨rows, _, mapM_settled again, bind_eq_ok.2 ⟨pool, _, rfl, done⟩⟩

theorem writeClassAttributes_again {f : String → String} (keeps : KeepsKnown f)
    {attributes : List Attribute} (proper : Attribute.AllProper depth attributes)
    (within : depth ≤ ConstantPool.dynamicDepth)
    (place : depth ≠ 0 → .bootstrapMethods ∈ attributes) (sound : pool.Sound)
    (empty : depth = 0 → pool.bootstrap = #[])
    (kept : Attribute.mapTextsList (.all f) .type attributes = attributes) {bytes : Bytes}
    {next : ConstantPool} (done : writeClassAttributes attributes pool = .ok (bytes, next)) :
    pool.Extends f next ∧ writeClassAttributes attributes next = .ok (bytes, next) := by
  have repeats : ∀ item ∈ attributes, Repeats f (writeClassAttribute item) := fun item member =>
    repeats_classAttribute keeps .type
      (map_eq_self_iff.1 (Attribute.mapTextsList_eq_map _ .type _ ▸ kept) item member)
  rw [writeClassAttributes_eq] at done ⊢
  obtain ⟨rows, first, mapped, done⟩ := bind_eq_ok.1 done
  obtain ⟨current, middle, got, done⟩ := bind_eq_ok.1 done
  cases got
  obtain ⟨sound, grows, each⟩ := Interns.mapM (fun item member => interns_classAttribute
    (proper.of_mem member) within) sound mapped
  have bare : none ∉ rows → first.bootstrap = #[] := by
    intro closed
    have zero : depth = 0 := by
      by_contra deep
      exact closed (none_mem_rows (each sound (.refl _)) (place deep))
    exact (grows.still zero).trans (empty zero)
  have still := (reads_filled sound bare done).2.1.still rfl
  obtain ⟨grows, mapped⟩ := Repeats.mapM repeats mapped
  obtain ⟨more, filled⟩ := repeats_filled keeps rows first.bootstrap.toList done
  rw [← still] at filled
  refine ⟨grows.trans more, bind_eq_ok.2 ⟨rows, next, mapped more, ?_⟩⟩
  exact bind_eq_ok.2 ⟨next, next, rfl, filled (.refl next)⟩

/-! The class as a whole. -/

structure ClassParts where
  name : UInt16
  superclass : UInt16
  interfaces : Bytes
  fields : Bytes
  methods : Bytes
  attributes : Bytes

def ClassParts.body (access : UInt16) (parts : ClassParts) : Bytes :=
  Bytes.u2 access ++ Bytes.u2 parts.name ++ Bytes.u2 parts.superclass ++ parts.interfaces ++
    parts.fields ++ parts.methods ++ parts.attributes

structure ClassModel.Writes (model : ClassModel) (pool : ConstantPool) (parts : ClassParts) :
    Prop where
  name : Interning.className model.name pool = .ok (parts.name, pool)
  superclass : className? model.superclass pool = .ok (parts.superclass, pool)
  interfaces : writeTable writeClassName model.interfaces pool = .ok (parts.interfaces, pool)
  fields : writeTable Member.write model.fields pool = .ok (parts.fields, pool)
  methods : writeTable Member.write model.methods pool = .ok (parts.methods, pool)
  attributes : writeClassAttributes model.attributes pool = .ok (parts.attributes, pool)

theorem ClassModel.Writes.toBytes {model : ClassModel} {parts : ClassParts}
    (writes : model.Writes pool parts) :
    ClassFile.toBytes ⟨model, pool⟩ = .ok (Bytes.u4 magic ++ Bytes.u2 model.minor ++
      Bytes.u2 model.major ++ pool.encode ++ parts.body model.access) := by
  have written : model.write pool = .ok (parts.body model.access, pool) := by
    refine bind_eq_ok.2 ⟨_, _, writes.name, bind_eq_ok.2 ⟨_, _, writes.superclass, ?_⟩⟩
    refine bind_eq_ok.2 ⟨_, _, writes.interfaces, bind_eq_ok.2 ⟨_, _, writes.fields, ?_⟩⟩
    exact bind_eq_ok.2 ⟨_, _, writes.methods, bind_eq_ok.2 ⟨_, _, writes.attributes, rfl⟩⟩
  exact Except.bind_eq_ok.2 ⟨_, written, rfl⟩

theorem ClassModel.writes_of_write {f : String → String} (keeps : KeepsKnown f) {model : ClassModel}
    (proper : model.Proper depth) (within : depth ≤ ConstantPool.dynamicDepth)
    (sound : pool.Sound) (empty : depth = 0 → pool.bootstrap = #[])
    (kept : model.mapTexts (.all f) = model) {body : Bytes} {next : ConstantPool}
    (done : model.write pool = .ok (body, next)) :
    next.Sound ∧ pool.Grows depth next ∧ pool.Extends f next ∧
      ∃ parts, model.Writes next parts ∧ body = parts.body model.access := by
  have named : f model.name = model.name := congrArg ClassHeader.name (congrArg toClassHeader kept)
  have extended : model.superclass.map f = model.superclass :=
    congrArg ClassHeader.superclass (congrArg toClassHeader kept)
  have implemented : model.interfaces.map f = model.interfaces :=
    congrArg ClassHeader.interfaces (congrArg toClassHeader kept)
  obtain ⟨name, first, here, done⟩ := bind_eq_ok.1 done
  obtain ⟨superclass, second, above, done⟩ := bind_eq_ok.1 done
  obtain ⟨interfaces, third, beside, done⟩ := bind_eq_ok.1 done
  obtain ⟨fields, fourth, inside, done⟩ := bind_eq_ok.1 done
  obtain ⟨methods, fifth, below, done⟩ := bind_eq_ok.1 done
  obtain ⟨attributes, last, there, done⟩ := bind_eq_ok.1 done
  obtain ⟨rfl, rfl⟩ := pure_eq_ok.1 done
  obtain ⟨sound, grows₁, -⟩ := interns_className _ sound here
  obtain ⟨sound, grows₂, -⟩ := Attribute.interns_className? _ sound above
  obtain ⟨sound, grows₃, -⟩ := Attribute.interns_classNames _ sound beside
  obtain ⟨sound, grows₄, -⟩ := interns_members proper.fields within sound inside
  obtain ⟨sound, grows₅, -⟩ := interns_members proper.methods within sound below
  have grows := (((grows₁.trans grows₂).trans grows₃).trans grows₄).trans grows₅
  have still : depth = 0 → fifth.bootstrap = #[] := fun zero =>
    (grows.still zero).trans (empty zero)
  obtain ⟨lastSound, grows₆, -⟩ :=
    writeClassAttributes_back proper.attributes within proper.place sound still there
  obtain ⟨more₆, there⟩ := writeClassAttributes_again keeps proper.attributes within proper.place
    sound still (congrArg ClassModel.attributes kept) there
  obtain ⟨more₁, here⟩ := repeats_className named here
  obtain ⟨more₂, above⟩ := repeats_className? extended above
  obtain ⟨more₃, beside⟩ := repeats_classNames implemented beside
  obtain ⟨more₄, inside⟩ := repeats_members keeps .field (congrArg ClassModel.fields kept) inside
  obtain ⟨more₅, below⟩ := repeats_members keeps .method (congrArg ClassModel.methods kept) below
  have fromFourth := more₅.trans more₆
  have fromThird := more₄.trans fromFourth
  have fromSecond := more₃.trans fromThird
  have fromFirst := more₂.trans fromSecond
  exact ⟨lastSound, grows.trans grows₆, more₁.trans fromFirst,
    ⟨name, superclass, interfaces, fields, methods, attributes⟩,
    ⟨here fromFirst, above fromSecond, beside fromThird, inside fromFourth, below more₆, there⟩, rfl⟩

theorem ConstantPool.reread_of_own (own : ∀ entry ∈ pool.entries.toList, entry.IsOwn) :
    pool.reread = pool ∧ pool.ReadsAs id := by
  have entries : pool.entries.map PoolEntry.reread = pool.entries := by
    rw [← Array.toList_inj, Array.toList_map]
    exact map_eq_self_iff.2 fun entry member => (own entry member : entry.IsOwn).reread_eq_self
  refine ⟨?_, fun text stored exact member => ⟨exact, own _ member⟩, fun text => .inl rfl⟩
  rw [reread, entries]

theorem ClassFile.settled {model : ClassModel} {parts : ClassParts} (proper : model.Proper depth)
    (within : depth ≤ ConstantPool.dynamicDepth) (sound : pool.Sound)
    (empty : depth = 0 → pool.bootstrap = #[])
    (own : ∀ entry ∈ pool.entries.toList, entry.IsOwn) (writes : model.Writes pool parts) :
    ∃ again, parse (Bytes.u4 magic ++ Bytes.u2 model.minor ++ Bytes.u2 model.major ++ pool.encode ++
        parts.body model.access) = .ok again ∧
      again.toBytes = .ok (Bytes.u4 magic ++ Bytes.u2 model.minor ++ Bytes.u2 model.major ++
        pool.encode ++ parts.body model.access) := by
  obtain ⟨still, told⟩ := ConstantPool.reread_of_own own
  obtain ⟨rawFields, fields, readFields, decodedFields, writesFields⟩ :=
    settled_members proper.fields within sound writes.fields
  obtain ⟨rawMethods, methods, readMethods, decodedMethods, writesMethods⟩ :=
    settled_members proper.methods within sound writes.methods
  obtain ⟨raws, attributes, readAttributes, decodedAttributes, found, writesAttributes⟩ :=
    settled_classAttributes proper.attributes within proper.place sound empty writes.attributes
  have retold := told.retold
  rw [← ConstantPool.viewed_id pool.reread] at retold
  have front : Reads (ClassHeader.readAs id) _ (model.toClassHeader.mapTexts (.all id), _) :=
    ClassHeader.reads sound retold
      ((interns_className _ : Interns 0 _ _).settled sound writes.name)
      ((Attribute.interns_className? _ : Interns 0 _ _).settled sound writes.superclass)
      ((Attribute.interns_classNames _ : Interns 0 _ _).settled sound writes.interfaces)
  have header : model.toClassHeader.mapTexts (.all id) = model.toClassHeader := by
    simp [ClassHeader.mapTexts, TextMap.all]
  rw [header, ConstantPool.viewed_id, still] at front
  have reads := Skeleton.reads front readFields readMethods readAttributes
  simp only [List.append_assoc] at reads
  refine ⟨⟨{ model.toClassHeader with fields, methods, attributes }, pool⟩, ?_, ?_⟩
  · simp only [← parseAs_id, parseAs, ClassParts.body, List.append_assoc, reads.all]
    exact Skeleton.decode_eq found decodedFields decodedMethods decodedAttributes
  · exact ClassModel.Writes.toBytes ⟨writes.name, writes.superclass, writes.interfaces, writesFields,
      writesMethods, writesAttributes⟩

/-- A map that keeps the texts of a pool, and the names of attributes, and no others. -/
def ConstantPool.onlyOwn (pool : ConstantPool) : String → String :=
  onlyGood fun text => (pool.findText? text).isSome ∨ text ∈ Attribute.known ++ CodeAttribute.known

theorem ConstantPool.isSome_of_utf8 {index : UInt16} {text : String}
    (found : pool.utf8 index = .ok text) : (pool.findText? text).isSome := by
  obtain ⟨stored, exact, here⟩ := utf8_eq_ok.1 found
  rw [Option.isSome_iff_ne_none]
  intro missing
  exact not_mem_of_findText? missing stored exact (List.mem_of_getElem? (entry_eq_ok.1 here).1)

theorem ConstantPool.Extends.own {next : ConstantPool} (grows : pool.Extends pool.onlyOwn next)
    (own : ∀ entry ∈ pool.entries.toList, entry.IsOwn) :
    ∀ entry ∈ next.entries.toList, entry.IsOwn := by
  intro entry member
  cases entry with
  | utf8 text stored exact =>
    rcases grows.fresh member with old | ⟨missing, kept, rfl, rfl⟩
    · exact own _ old
    · refine ModifiedUtf8.decode_encode_of_storable ?_
      unfold onlyOwn onlyGood at kept
      split at kept
      case isTrue either =>
        rcases either with found | known
        · rw [missing] at found
          cases found
        · exact known_storable text known
      case isFalse =>
        subst kept
        exact .nil
  | _ => trivial

/-- Reading a class file and writing it gives bytes that come of themselves in the same way. -/
theorem ClassFile.reencoded_again {bytes once : Bytes} {file : ClassFile}
    (parsed : parse bytes = .ok file) (done : file.toBytes = .ok once) :
    ∃ again, parse once = .ok again ∧ again.toBytes = .ok once := by
  obtain ⟨sound, proper⟩ := proper_of_parse parsed
  obtain ⟨⟨body, next⟩, written, done⟩ := Except.bind_eq_ok.1 done
  cases done
  have within : file.pool.depth ≤ ConstantPool.dynamicDepth := ConstantPool.depth_le
  have empty : file.pool.depth = 0 → file.pool.bootstrap = #[] := ConstantPool.bootstrap_of_depth
  have kept : file.model.mapTexts (.all file.pool.onlyOwn) = file.model :=
    onlyGood_of_parse (fun _ => .inr) parsed fun _ _ found => .inl (ConstantPool.isSome_of_utf8 found)
  obtain ⟨nextSound, grows, more, parts, writes, rfl⟩ :=
    ClassModel.writes_of_write (keepsKnown_onlyGood fun _ => .inr) proper within sound empty kept written
  exact settled proper within nextSound (fun zero => (grows.still zero).trans (empty zero))
    (more.own (own_of_parse parsed)) writes

open Bytes in
/-- The class `o/A/B` with a method `run` that casts to it by a second entry of the same name. -/
def doubledClass : Bytes :=
  let pool := [1] ++ u2 5 ++ [0x6F, 0x2F, 0x41, 0x2F, 0x42] ++ [7] ++ u2 1 ++
    [1] ++ u2 3 ++ [0x72, 0x75, 0x6E] ++ [1] ++ u2 3 ++ [0x28, 0x29, 0x56] ++
    [1] ++ u2 4 ++ [0x43, 0x6F, 0x64, 0x65] ++ [1] ++ u2 5 ++ [0x6F, 0x2F, 0x41, 0x2F, 0x42] ++
    [7] ++ u2 6
  let body := u2 1 ++ u2 0 ++ u4 6 ++ [0x01, 0xC0, 0x00, 0x07, 0x57, 0xB1] ++ u2 0 ++ u2 0
  let method := u2 0x0009 ++ u2 3 ++ u2 4 ++ u2 1 ++ u2 5 ++ u4 18 ++ body
  u4 magic ++ u2 0 ++ u2 52 ++ u2 8 ++ pool ++ u2 0x0021 ++ u2 2 ++ u2 0 ++ u2 0 ++ u2 0 ++
    u2 1 ++ method ++ u2 0

theorem doubledClass_reencoded : ∃ file once, ClassFile.parse doubledClass = .ok file ∧
    file.toBytes = .ok once ∧ once ≠ doubledClass ∧
      ∃ again, ClassFile.parse once = .ok again ∧ again.toBytes = .ok once := by
  have runs : (do
      let once ← (← ClassFile.parse doubledClass).toBytes
      return decide (once ≠ doubledClass)) = .ok true := by
    decide +kernel
  obtain ⟨file, parsed, runs⟩ := Except.bind_eq_ok.1 runs
  obtain ⟨once, done, runs⟩ := Except.bind_eq_ok.1 runs
  have differs := of_decide_eq_true (Except.ok.inj runs)
  exact ⟨file, once, parsed, done, differs, ClassFile.reencoded_again parsed done⟩

end ClassRenaming
