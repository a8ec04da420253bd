import ClassRenaming.ClassFile.Writing
import ClassRenaming.Proofs.StoredCode

/-!
Attributes are read back from their bytes, those of record components at every depth among them. An
attribute is first known by the bytes of its body, and these read as the attribute with any depth
greater than their number.
-/

namespace ClassRenaming

open Reader

variable {depth : Nat}

/-! Attributes with the bytes of their bodies. -/

namespace RawAttribute

def encode (raw : RawAttribute) : Bytes :=
  Bytes.u2 raw.name ++ Bytes.u4 raw.info.length.toUInt32 ++ raw.info

structure Holds (pool : ConstantPool) (raw : RawAttribute) (item : Attribute) : Prop where
  short : raw.info.length < 4294967296
  reads : ∃ name, pool.utf8 raw.name = .ok name ∧
    ∀ fuel, raw.info.length < fuel → Attribute.read pool fuel name raw.info = .ok item

variable {pool : ConstantPool}

theorem reads_encode {raw : RawAttribute} (short : raw.info.length < 4294967296) :
    Reads RawAttribute.read raw.encode raw := by
  have length : raw.info.length.toUInt32.toNat = raw.info.length := by
    simp only [Nat.toUInt32, UInt32.toNat_ofNat']
    omega
  rw [encode, List.append_assoc]
  refine (Reads.u2 _).bind ((Reads.u4 _).bind ?_)
  rw [length]
  exact (Reads.take rfl).last (.pure _)

theorem encode_of_attributeBytes {index : UInt16} {info bytes : Bytes}
    (written : attributeBytes index info = .ok bytes) :
    info.length < 4294967296 ∧ bytes = encode ⟨index, info⟩ := by
  unfold attributeBytes at written
  split at written
  case isTrue short =>
    cases written
    exact ⟨short, rfl⟩
  case isFalse => cases written

theorem reads_many {raws : List RawAttribute} {items : List Attribute}
    (each : List.Forall₂ (Holds pool) raws items) :
    Reads (many raws.length RawAttribute.read) (raws.flatMap encode) raws := by
  induction each with
  | nil => exact .pure _
  | cons first _ ih => exact (reads_encode first.short).bind (ih.last (.pure _))

theorem decode_of_holds {raw : RawAttribute} {item : Attribute} (holds : raw.Holds pool item) :
    decode pool raw = .ok item := by
  obtain ⟨name, named, reads⟩ := holds.reads
  rw [decode, named]
  exact reads _ (Nat.lt_succ_self _)

theorem mapM_decode {raws : List RawAttribute} {items : List Attribute}
    (each : List.Forall₂ (Holds pool) raws items) : raws.mapM (decode pool) = .ok items := by
  induction each with
  | nil => rfl
  | cons first _ ih =>
    rw [List.mapM_cons, decode_of_holds first, ih]
    rfl

theorem reads_inside {raws : List RawAttribute} {items : List Attribute}
    (each : List.Forall₂ (Holds pool) raws items) {fuel : Nat}
    (enough : (raws.flatMap encode).length ≤ fuel) :
    Reads (many items.length do
        let (name, info) ← takeAttribute pool
        Attribute.read pool fuel name info) (raws.flatMap encode) items := by
  induction each with
  | nil => exact .pure _
  | @cons raw item raws items first _ ih =>
    rw [List.flatMap_cons, List.length_append] at enough
    obtain ⟨name, named, reads⟩ := first.reads
    have length : raw.encode.length = raw.info.length + 6 := by
      simp only [encode, List.length_append, Bytes.length_u2, Bytes.length_u4]
      omega
    have written : attributeBytes raw.name raw.info = .ok raw.encode := if_pos first.short
    have front : Reads (do
        let (name, info) ← takeAttribute pool
        Attribute.read pool fuel name info) raw.encode item :=
      (reads_takeAttribute named written).last (.lift (reads fuel (by omega)))
    exact front.bind ((ih (by omega)).last (.pure _))

end RawAttribute

/-! What an attribute has to be, and what becomes of its body. -/

namespace Attribute

def known : List String :=
  ["Signature", "ConstantValue", "Exceptions", "RuntimeVisibleAnnotations",
    "RuntimeInvisibleAnnotations", "RuntimeVisibleParameterAnnotations",
    "RuntimeInvisibleParameterAnnotations", "RuntimeVisibleTypeAnnotations",
    "RuntimeInvisibleTypeAnnotations", "AnnotationDefault", "Record", "InnerClasses",
    "EnclosingMethod", "NestHost", "NestMembers", "PermittedSubclasses", "Code", "BootstrapMethods"]

mutual

def Proper (depth : Nat) : Attribute → Prop
  | constantValue constant => constant.nesting ≤ depth
  | typeAnnotations _ entries => ∀ item ∈ entries, item.target.Matches item.targetType
  | record components => ComponentsProper depth components
  | code body => body.Proper depth
  | unknown name _ => name ∉ known
  | _ => True

def ComponentsProper (depth : Nat) : List (RecordComponent Attribute) → Prop
  | [] => True
  | ⟨_, _, attributes⟩ :: rest => AllProper depth attributes ∧ ComponentsProper depth rest

def AllProper (depth : Nat) : List Attribute → Prop
  | [] => True
  | first :: rest => first.Proper depth ∧ AllProper depth rest

end

theorem AllProper.of_mem {attributes : List Attribute} (proper : AllProper depth attributes)
    {item : Attribute} (member : item ∈ attributes) : item.Proper depth := by
  induction attributes with
  | nil => cases member
  | cons first rest ih =>
    rcases List.mem_cons.1 member with rfl | member
    · exact proper.1
    · exact ih proper.2 member

theorem read_unknown {pool : ConstantPool} {fuel : Nat} {name : String} {info : Bytes}
    (other : name ∉ known) : Attribute.read pool (fuel + 1) name info = .ok (.unknown name info) := by
  unfold Attribute.read
  split <;> first | rfl | simp [known] at other

def BodyBack (item : Attribute) (pool : ConstantPool) (info : Bytes) : Prop :=
  ∃ result, item.ComesBack pool result ∧
    ∀ fuel, info.length < fuel → Attribute.read pool fuel item.name info = .ok result

theorem bodyBack_of_reads {α : Type} {item : Attribute} {pool : ConstantPool} {info : Bytes}
    {reader : Reader α} {make : α → Attribute} {value : α} (reads : Reads reader info value)
    (branch : ∀ fuel, Attribute.read pool (fuel + 1) item.name info =
      make <$> reader.all info fun _ => .malformed (partName item.name))
    (back : item.ComesBack pool (make value)) : item.BodyBack pool info := by
  refine ⟨make value, back, fun fuel enough => ?_⟩
  cases fuel with
  | zero => exact absurd enough (Nat.not_lt_zero _)
  | succ fuel =>
    rw [branch, reads.all]
    rfl

section Parts

theorem interns_className? (name : Option String) :
    Interns depth (className? name) fun pool index => pool.className? index = .ok name := by
  cases name with
  | none => exact .pure fun pool _ => rfl
  | some name =>
    exact (interns_className _).mono fun pool sound index named =>
      className?_of_className sound named

theorem interns_writeClassName (name : String) :
    Interns depth (writeClassName name) fun pool bytes => Reads pool.takeClassName bytes name :=
  (interns_className _).bind fun _ => .pure fun _ _ named => reads_takeClassName named

theorem interns_classNames (names : List String) :
    Interns depth (writeTable writeClassName names) fun pool bytes =>
      Reads (table pool.takeClassName) bytes names :=
  interns_items fun name _ => interns_writeClassName name

theorem interns_innerClass (entry : InnerClass) :
    Interns depth entry.write fun pool bytes => Reads (InnerClass.read pool) bytes entry := by
  refine (interns_className _).bind fun inner => ?_
  refine (interns_className? _).bind fun outer => ?_
  have reads : ∀ (pool : ConstantPool) (index : UInt16), pool.utf8? index = .ok entry.name →
      pool.className? outer = .ok entry.outer → pool.className inner = .ok entry.inner →
      Reads (InnerClass.read pool)
        (Bytes.u2 inner ++ Bytes.u2 outer ++ Bytes.u2 index ++ Bytes.u2 entry.access) entry := by
    intro pool index named outside inside
    simp only [List.append_assoc]
    refine (reads_takeClassName inside).bind ?_
    refine Reads.bind ((Reads.u2 _).last (.lift outside)) ?_
    refine Reads.bind ((Reads.u2 _).last (.lift named)) ?_
    exact (Reads.u2 _).last (.pure _)
  cases here : entry.name with
  | none =>
    rw [here] at reads
    exact .pure fun pool _ => reads pool 0 rfl
  | some name =>
    rw [here] at reads
    refine (interns_utf8 _).bind fun index => .pure fun pool sound named => ?_
    refine reads pool index ?_
    rw [ConstantPool.utf8?, if_neg (sound.utf8_ne_zero named), named]
    rfl

theorem reads_takeNameAndType? {pool : ConstantPool} (sound : pool.Sound) {index : UInt16}
    {pair : String × String} (named : pool.nameAndType index = .ok pair) :
    Reads (takeNameAndType? pool) (Bytes.u2 index) (some pair) := by
  refine (Reads.u2 _).last ?_
  rw [if_neg (sound.nameAndType_ne_zero named)]
  exact (Reads.lift named).skip (.pure _)

theorem bodyBack_enclosingMethod {pool : ConstantPool} {index method : UInt16} {owner : String}
    {found : Option (String × String)} (named : pool.className index = .ok owner)
    (typed : Reads (takeNameAndType? pool) (Bytes.u2 method) found) :
    (enclosingMethod owner found).BodyBack pool (Bytes.u2 index ++ Bytes.u2 method) := by
  have reads : Reads (do return .enclosingMethod (← pool.takeClassName) (← takeNameAndType? pool))
      (Bytes.u2 index ++ Bytes.u2 method) (enclosingMethod owner found) :=
    (reads_takeClassName named).bind (typed.last (.pure _))
  refine ⟨_, rfl, fun fuel enough => ?_⟩
  cases fuel with
  | zero => exact absurd enough (Nat.not_lt_zero _)
  | succ fuel =>
    have whole : ∀ leftover, Reader.all _ _ leftover = .ok _ := fun leftover => reads.all
    exact whole fun _ => .malformed (partName "EnclosingMethod")

end Parts

theorem AllComeBack.length {pool : ConstantPool} {attributes results : List Attribute}
    (backs : AllComeBack pool attributes results) : results.length = attributes.length := by
  induction attributes generalizing results with
  | nil =>
    cases backs
    rfl
  | cons first rest ih =>
    obtain ⟨other, later, rfl, -, backs⟩ := backs
    rw [List.length_cons, List.length_cons, ih backs]

def readComponent (pool : ConstantPool) (fuel : Nat) : Reader (RecordComponent Attribute) := do
  let name ← pool.takeUtf8
  let descriptor ← pool.takeUtf8
  let attributes ← table do
    let (name, info) ← takeAttribute pool
    Attribute.read pool fuel name info
  return { name, descriptor, attributes }

theorem reads_component {pool : ConstantPool} {first second : UInt16} {name descriptor : String}
    {raws : List RawAttribute} {items : List Attribute} {count : Bytes} {fuel : Nat}
    (named : pool.utf8 first = .ok name) (typed : pool.utf8 second = .ok descriptor)
    (counts : Bytes.tableCount items.length = .ok count)
    (holds : List.Forall₂ (RawAttribute.Holds pool) raws items)
    (enough : (raws.flatMap RawAttribute.encode).length ≤ fuel) :
    Reads (readComponent pool fuel)
      (Bytes.u2 first ++ Bytes.u2 second ++ count ++ raws.flatMap RawAttribute.encode)
      ⟨name, descriptor, items⟩ := by
  have table := Reads.counted counts (RawAttribute.reads_inside holds enough)
  simp only [List.append_assoc]
  exact (reads_takeUtf8 named).bind ((reads_takeUtf8 typed).bind (table.last (.pure _)))

theorem read_record {pool : ConstantPool} {length : Nat} {count bytes : Bytes}
    {results : List (RecordComponent Attribute)} (counts : Bytes.tableCount length = .ok count)
    (reads : ∀ fuel, bytes.length ≤ fuel →
      Reads (many length (readComponent pool fuel)) bytes results) {fuel : Nat}
    (enough : (count ++ bytes).length < fuel) :
    Attribute.read pool fuel "Record" (count ++ bytes) = .ok (record results) := by
  rw [List.length_append] at enough
  cases fuel with
  | zero => exact absurd enough (Nat.not_lt_zero _)
  | succ fuel =>
    have table := Reads.counted counts (reads fuel (by omega))
    have whole : ∀ leftover, (Reader.table (readComponent pool fuel)).all (count ++ bytes) leftover =
        .ok results := fun _ => table.all
    change record <$> (Reader.table (readComponent pool fuel)).all _ _ = _
    rw [whole]
    rfl

mutual

theorem interns_body : ∀ item : Attribute, item.Proper depth →
    depth ≤ ConstantPool.dynamicDepth →
    Interns depth item.writeBody item.BodyBack
  | .signature text, _, _ => by
    refine (interns_utf8 _).bind fun index => .pure fun pool _ named => ?_
    exact bodyBack_of_reads (reads_takeUtf8 named) (fun _ => rfl) rfl
  | .constantValue constant, proper, within => by
    refine (interns_constant constant proper).bind fun index => .pure fun pool _ found => ?_
    have reads : Reads (do pool.constant (← Reader.u2)) (Bytes.u2 index) constant.normal :=
      (Reads.u2 _).last (.lift (found _ (Nat.le_trans proper within)))
    exact bodyBack_of_reads reads (fun _ => rfl) rfl
  | .exceptions names, _, _ => by
    refine (interns_classNames _).mono fun pool _ info reads => ?_
    exact bodyBack_of_reads reads (fun _ => rfl) rfl
  | .nestMembers names, _, _ => by
    refine (interns_classNames _).mono fun pool _ info reads => ?_
    exact bodyBack_of_reads reads (fun _ => rfl) rfl
  | .permittedSubclasses names, _, _ => by
    refine (interns_classNames _).mono fun pool _ info reads => ?_
    exact bodyBack_of_reads reads (fun _ => rfl) rfl
  | .annotations visibility entries, _, _ => by
    refine Annotation.interns_writeTable _ |>.mono fun pool _ info reads => ?_
    cases visibility <;> exact bodyBack_of_reads reads (fun _ => rfl) rfl
  | .parameterAnnotations visibility parameters, _, _ => by
    rw [writeBody]
    split
    · exact .throw
    case isFalse few =>
      refine (Interns.mapM fun entries _ => Annotation.interns_writeTable entries).bind
        fun parts => .pure fun pool _ reads => ?_
      have whole := Annotation.reads_tables (Nat.not_lt.1 few) reads.flip
      cases visibility <;> exact bodyBack_of_reads whole (fun _ => rfl) rfl
  | .typeAnnotations visibility entries, proper, _ => by
    refine TypeAnnotation.interns_writeTable proper |>.mono fun pool _ info reads => ?_
    have same : entries.map (·.moved id) = entries := by
      rw [funext TypeAnnotation.moved_id]
      exact List.map_id _
    rw [same] at reads
    cases visibility <;> exact bodyBack_of_reads reads (fun _ => rfl) rfl
  | .annotationDefault value, _, _ => by
    refine (interns_value value).mono fun pool _ info reads => ?_
    have whole : Reads (ElementValue.readWhole pool) info value := fun rest =>
      reads _ (by simp only [List.length_append]; omega) rest
    exact bodyBack_of_reads whole (fun _ => rfl) rfl
  | .record components, proper, within => by
    rw [writeBody]
    refine (Interns.lift fun count counts _ _ => counts).bind fun count => ?_
    refine (interns_components components proper within).bind fun bytes => ?_
    refine .pure fun pool _ each counts => ?_
    obtain ⟨results, back, reads⟩ := each
    exact ⟨.record results, ⟨results, rfl, back⟩, fun fuel => read_record counts reads⟩
  | .innerClasses classes, _, _ => by
    refine (interns_items fun entry _ => interns_innerClass entry).mono
      fun pool _ info reads => ?_
    exact bodyBack_of_reads reads (fun _ => rfl) rfl
  | .enclosingMethod owner none, _, _ => by
    refine (interns_className _).bind fun index => .pure fun pool _ named => ?_
    exact bodyBack_enclosingMethod named ((Reads.u2 0).last (.pure _))
  | .enclosingMethod owner (some (name, descriptor)), _, _ => by
    refine (interns_className _).bind fun index => ?_
    refine (interns_nameAndType _ _).bind fun method => .pure fun pool sound typed named => ?_
    exact bodyBack_enclosingMethod named (reads_takeNameAndType? sound typed)
  | .nestHost name, _, _ => by
    refine (interns_writeClassName _).mono fun pool _ info reads => ?_
    exact bodyBack_of_reads reads (fun _ => rfl) rfl
  | .code body, proper, within => by
    refine (Code.interns_write proper within).mono fun pool _ info read => ?_
    obtain ⟨result, read, back⟩ := read
    refine ⟨.code result, ⟨result, rfl, back⟩, fun fuel enough => ?_⟩
    cases fuel with
    | zero => exact absurd enough (Nat.not_lt_zero _)
    | succ fuel =>
      change code <$> Code.read pool info = _
      rw [read]
      rfl
  | .bootstrapMethods, _, _ => .throw
  | .unknown name info, proper, _ => by
    refine .pure fun pool _ => ⟨_, rfl, fun fuel enough => ?_⟩
    cases fuel with
    | zero => exact absurd enough (Nat.not_lt_zero _)
    | succ fuel => exact read_unknown proper

theorem interns_components : ∀ components : List (RecordComponent Attribute),
    ComponentsProper depth components → depth ≤ ConstantPool.dynamicDepth →
    Interns depth (writeComponents components) fun pool bytes =>
      ∃ results, ComponentsComeBack pool components results ∧
        ∀ fuel, bytes.length ≤ fuel →
          Reads (many components.length (readComponent pool fuel)) bytes results
  | [], _, _ => .pure fun pool _ => ⟨[], rfl, fun fuel _ => .pure _⟩
  | ⟨name, descriptor, attributes⟩ :: rest, proper, within => by
    rw [writeComponents]
    refine (interns_utf8 _).bind fun first => ?_
    refine (interns_utf8 _).bind fun second => ?_
    refine (Interns.lift fun count counts _ _ => counts).bind fun count => ?_
    refine (interns_list attributes proper.1 within).bind fun bytes => ?_
    refine (interns_components rest proper.2 within).bind fun later => ?_
    refine .pure fun pool _ others inside counts typed named => ?_
    obtain ⟨results, back, reads⟩ := others
    obtain ⟨raws, items, backs, rfl, holds⟩ := inside
    refine ⟨⟨name, descriptor, items⟩ :: results, ⟨items, results, rfl, backs, back⟩, ?_⟩
    intro fuel enough
    simp only [List.length_append] at enough
    have component := reads_component named typed (backs.length ▸ counts) holds
      (by omega : (raws.flatMap RawAttribute.encode).length ≤ fuel)
    exact component.bind ((reads fuel (by omega)).last (.pure _))

theorem interns_list : ∀ attributes : List Attribute, AllProper depth attributes →
    depth ≤ ConstantPool.dynamicDepth →
    Interns depth (writeList attributes) fun pool bytes =>
      ∃ raws results, AllComeBack pool attributes results ∧ bytes = raws.flatMap RawAttribute.encode ∧
        List.Forall₂ (RawAttribute.Holds pool) raws results
  | [], _, _ => .pure fun pool _ => ⟨[], [], rfl, rfl, .nil⟩
  | first :: rest, proper, within => by
    rw [writeList]
    refine (interns_body first proper.1 within).bind fun info => ?_
    refine (interns_utf8 _).bind fun index => ?_
    refine (Interns.lift fun bytes written _ _ => RawAttribute.encode_of_attributeBytes written).bind
      fun bytes => ?_
    refine (interns_list rest proper.2 within).bind fun later => ?_
    refine .pure fun pool _ others written named body => ?_
    obtain ⟨raws, results, backs, rfl, holds⟩ := others
    obtain ⟨short, rfl⟩ := written
    obtain ⟨result, back, reads⟩ := body
    exact ⟨⟨index, info⟩ :: raws, result :: results, ⟨result, results, rfl, back, backs⟩, rfl,
      .cons ⟨short, _, named, reads⟩ holds⟩

end

end Attribute

end ClassRenaming
