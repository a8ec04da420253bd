import ClassRenaming.Proofs.ReadClasses
import ClassRenaming.Proofs.StoredClasses

/-!
The texts of a class that was read are texts of its pool: with a view that maps the texts of the pool
the same bytes are read as the class with its texts mapped. So a map that changes no text of the pool
leaves the class as it is, and what holds of every text of the pool holds of those of the class.
-/

namespace ClassRenaming

open Reader

variable {f : String → String} {view : PoolEntry → PoolEntry}

theorem ConstantPool.retold_self {pool : ConstantPool}
    (fixed : ∀ index text, pool.utf8 index = .ok text → f text = text) : pool.Retold f pool := by
  refine ⟨fun index entry here => ⟨entry, here, ?_⟩, rfl⟩
  cases entry with
  | utf8 text stored exact =>
    have same := fixed index text (utf8_eq_ok.2 ⟨stored, exact, here⟩)
    exact ⟨exact, by rw [same]⟩
  | _ => rfl

theorem ClassHeader.readAs_of_read {bytes rest : Bytes} {pair : ClassHeader × ConstantPool}
    (retold : pair.2.Retold f (pair.2.viewed view)) (done : read bytes = .ok (pair, rest)) :
    readAs view bytes = .ok ((pair.1.mapTexts (.all f), pair.2.viewed view), rest) := by
  obtain ⟨found, first, front, done⟩ := bind_eq_ok.1 done
  refine bind_eq_ok.2 ⟨found, first, front, ?_⟩
  split at done
  · cases done
  case isFalse valid =>
    obtain ⟨minor, second, small, done⟩ := bind_eq_ok.1 done
    obtain ⟨major, third, large, done⟩ := bind_eq_ok.1 done
    obtain ⟨pool, fourth, entries, done⟩ := bind_eq_ok.1 done
    obtain ⟨access, fifth, flags, done⟩ := bind_eq_ok.1 done
    obtain ⟨name, sixth, named, done⟩ := bind_eq_ok.1 done
    obtain ⟨superclass, seventh, above, done⟩ := bind_eq_ok.1 done
    obtain ⟨interfaces, eighth, beside, done⟩ := bind_eq_ok.1 done
    obtain ⟨rfl, rfl⟩ := pure_eq_ok.1 done
    rw [if_neg valid]
    refine bind_eq_ok.2 ⟨minor, second, small, bind_eq_ok.2 ⟨major, third, large, ?_⟩⟩
    refine bind_eq_ok.2 ⟨pool, fourth, entries, bind_eq_ok.2 ⟨access, fifth, flags, ?_⟩⟩
    refine bind_eq_ok.2 ⟨f name, sixth, retold.takeClassName named, ?_⟩
    refine bind_eq_ok.2 ⟨superclass.map f, seventh, retold.takeClassName? above, ?_⟩
    exact bind_eq_ok.2 ⟨interfaces.map f, _, retold.takeClassName.table beside, rfl⟩

def Skeleton.mapTexts (f : String → String) (view : PoolEntry → PoolEntry) (skeleton : Skeleton) :
    Skeleton :=
  { skeleton with
    header := skeleton.header.mapTexts (.all f)
    pool := skeleton.pool.viewed view
    fields := skeleton.fields.map (RawMember.mapTexts f)
    methods := skeleton.methods.map (RawMember.mapTexts f) }

theorem Skeleton.readAs_of_read {bytes rest : Bytes} {skeleton : Skeleton}
    (retold : skeleton.pool.Retold f (skeleton.pool.viewed view))
    (done : read bytes = .ok (skeleton, rest)) :
    readAs view bytes = .ok (skeleton.mapTexts f view, rest) := by
  obtain ⟨pair, first, front, done⟩ := bind_eq_ok.1 done
  obtain ⟨fields, second, inside, done⟩ := bind_eq_ok.1 done
  obtain ⟨methods, third, below, done⟩ := bind_eq_ok.1 done
  obtain ⟨attributes, fourth, around, done⟩ := bind_eq_ok.1 done
  obtain ⟨rfl, rfl⟩ := pure_eq_ok.1 done
  have members := (retells_rawMember retold).table
  refine bind_eq_ok.2 ⟨_, first, ClassHeader.readAs_of_read retold front, ?_⟩
  refine bind_eq_ok.2 ⟨_, second, members inside, bind_eq_ok.2 ⟨_, third, members below, ?_⟩⟩
  exact bind_eq_ok.2 ⟨attributes, _, around, rfl⟩

theorem Skeleton.retold_of_decode {skeleton : Skeleton} {file : ClassFile}
    (retold : file.pool.Retold f (file.pool.viewed view)) (done : skeleton.decode = .ok file) :
    skeleton.pool.Retold f (skeleton.pool.viewed view) := by
  obtain ⟨rows, -, done⟩ := Except.bind_eq_ok.1 done
  obtain ⟨fields, -, done⟩ := Except.bind_eq_ok.1 done
  obtain ⟨methods, -, done⟩ := Except.bind_eq_ok.1 done
  obtain ⟨attributes, -, done⟩ := Except.bind_eq_ok.1 done
  cases done
  exact ⟨retold.entry, rfl⟩

theorem Skeleton.decode_mapTexts {skeleton : Skeleton} {file : ClassFile}
    (retold : file.pool.Retold f (file.pool.viewed view)) (keeps : KeepsKnown f)
    (done : skeleton.decode = .ok file) :
    (skeleton.mapTexts f view).decode =
      .ok ⟨file.model.mapTexts (.all f), file.pool.viewed view⟩ := by
  have bare := retold_of_decode retold done
  obtain ⟨rows, found, done⟩ := Except.bind_eq_ok.1 done
  obtain ⟨fields, fieldsRead, done⟩ := Except.bind_eq_ok.1 done
  obtain ⟨methods, methodsRead, done⟩ := Except.bind_eq_ok.1 done
  obtain ⟨attributes, attributesRead, done⟩ := Except.bind_eq_ok.1 done
  cases done
  refine Except.bind_eq_ok.2 ⟨rows, findBootstrap_retold bare keeps found, ?_⟩
  refine Except.bind_eq_ok.2 ⟨_, RawMember.mapM_retold retold keeps .field fieldsRead, ?_⟩
  refine Except.bind_eq_ok.2 ⟨_, RawMember.mapM_retold retold keeps .method methodsRead, ?_⟩
  have attributesAgain := Except.mapM_of_each (g := Attribute.mapTexts (.all f) .type)
    (fun raw _ _ here => raw.decode_retold retold keeps .type here) attributesRead
  rw [← Attribute.mapTextsList_eq_map] at attributesAgain
  exact Except.bind_eq_ok.2 ⟨_, attributesAgain, rfl⟩

namespace ClassFile

theorem parseAs_of_parse {bytes : Bytes} {file : ClassFile}
    (retold : file.pool.Retold f (file.pool.viewed view)) (keeps : KeepsKnown f)
    (done : parse bytes = .ok file) :
    parseAs view bytes = .ok ⟨file.model.mapTexts (.all f), file.pool.viewed view⟩ := by
  obtain ⟨skeleton, all, decoded⟩ := Except.bind_eq_ok.1 done
  have read := Skeleton.readAs_of_read (Skeleton.retold_of_decode retold decoded) (all_eq_ok.1 all)
  exact Except.bind_eq_ok.2
    ⟨_, all_eq_ok.2 read, Skeleton.decode_mapTexts retold keeps decoded⟩

theorem mapTexts_of_parse {bytes : Bytes} {file : ClassFile} (done : parse bytes = .ok file)
    (fixed : ∀ index text, file.pool.utf8 index = .ok text → f text = text) (keeps : KeepsKnown f) :
    file.model.mapTexts (.all f) = file.model := by
  have retold : file.pool.Retold f (file.pool.viewed id) := by
    rw [file.pool.viewed_id]
    exact ConstantPool.retold_self fixed
  have again := parseAs_of_parse retold keeps done
  rw [parseAs_id, done] at again
  exact (congrArg ClassFile.model (Except.ok.inj again)).symm

end ClassFile

/-! Texts with a property. -/

section Good

variable (good : String → Prop) [DecidablePred good]

def onlyGood (text : String) : String := if good text then text else ""

variable {good} (known : ∀ name ∈ Attribute.known ++ CodeAttribute.known, good name)

include known

theorem keepsKnown_onlyGood : KeepsKnown (onlyGood good) := by
  refine ⟨fun name member => if_pos (known name member), fun name member => ?_⟩
  unfold onlyGood at member ⊢
  split at member
  case isTrue here => exact if_pos here
  case isFalse => exact absurd member (by decide)

theorem ClassFile.onlyGood_of_parse {bytes : Bytes} {file : ClassFile} (done : parse bytes = .ok file)
    (pool : ∀ index text, file.pool.utf8 index = .ok text → good text) :
    file.model.mapTexts (.all (onlyGood good)) = file.model :=
  mapTexts_of_parse done (fun index text found => if_pos (pool index text found))
    (keepsKnown_onlyGood known)

end Good

end ClassRenaming
