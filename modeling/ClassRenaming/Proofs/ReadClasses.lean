import ClassRenaming.Proofs.ReadParts
import ClassRenaming.Proofs.StoredClasses

/-!
A class that was read is of the kind that is read back once it is written, and so is its pool.
-/

namespace ClassRenaming

open Reader

variable {pool : ConstantPool}

theorem CodeAttribute.proper_of_read {name : String} {info : Bytes} {item : CodeAttribute}
    (done : CodeAttribute.read pool name info = .ok item) : item.Proper := by
  unfold CodeAttribute.read at done
  split at done
  case h_1 =>
    obtain ⟨frames, read, rfl⟩ := Except.map_eq_ok.1 done
    exact (Frame.gives_readTable pool).all read
  case h_5 =>
    obtain ⟨annotations, read, rfl⟩ := Except.map_eq_ok.1 done
    exact TypeAnnotation.gives_readTable pool |>.all read
  case h_6 =>
    obtain ⟨annotations, read, rfl⟩ := Except.map_eq_ok.1 done
    exact TypeAnnotation.gives_readTable pool |>.all read
  case h_7 =>
    cases done
    simp only [Proper, known, List.mem_cons, List.not_mem_nil]
    tauto
  all_goals
    obtain ⟨entries, -, rfl⟩ := Except.map_eq_ok.1 done
    trivial

namespace Code

theorem tiles_of_readInstructions {length steps offset : Nat} {bytes : Bytes}
    {instructions : List Placed}
    (done : readInstructions pool length steps offset bytes = .ok instructions) :
    Tiles offset instructions (offset + bytes.length) ∧
      ∀ placed ∈ instructions, placed.instruction.Proper pool.depth := by
  induction steps generalizing offset bytes instructions with
  | zero =>
    cases bytes with
    | nil =>
      cases done
      exact ⟨rfl, by simp⟩
    | cons b bytes => cases done
  | succ steps ih =>
    cases bytes with
    | nil =>
      cases done
      exact ⟨rfl, by simp⟩
    | cons b bytes =>
      rw [readInstructions] at done
      · split at done
        · cases done
        case h_2 instruction rest here =>
          split at done
          · cases done
          case h_2 others there =>
            cases done
            obtain ⟨proper, count⟩ := Instruction.gives_read pool length offset here
            obtain ⟨tiles, each⟩ := ih there
            refine ⟨⟨rfl, ?_⟩, ?_⟩
            · convert tiles using 1
              omega
            · intro placed member
              rcases List.mem_cons.1 member with rfl | member
              · exact proper
              · exact each placed member
      · simp

theorem gives_readBody (pool : ConstantPool) :
    Gives (readBody pool) fun _ code => code.Proper pool.depth := by
  refine Gives.any.bind fun _ maxStack _ => Gives.any.bind fun _ maxLocals _ => ?_
  refine Gives.any.bind fun _ size _ => ?_
  dsimp only
  split
  · exact .throw
  case isFalse fits =>
    refine Gives.take.bind fun _ bytecode taken => Gives.lift.bind fun _ instructions read => ?_
    refine Gives.lift.bind fun _ _ checked => ?_
    obtain ⟨tiles, proper⟩ := tiles_of_readInstructions read.2
    rw [Nat.zero_add, taken.2] at tiles
    have handler : Gives (readHandler pool
        (fun offset => (startFlags size.toNat instructions).getD offset false) size.toNat)
        fun _ handler => handlerIsValid
          (fun offset => (startFlags size.toNat instructions).getD offset false) size.toNat handler =
            true := by
      refine Gives.any.bind fun _ start _ => Gives.any.bind fun _ stop _ => ?_
      refine Gives.any.bind fun _ target _ => Gives.any.bind fun _ catchType _ => ?_
      dsimp only
      split
      · exact .throw
      case isFalse valid => exact .pure (by simpa using valid)
    have inside : Gives (do
        let part ← takeAttribute pool
        CodeAttribute.read pool part.1 part.2) fun _ item => item.Proper :=
      Gives.any.bind fun _ _ _ => Gives.lift.mono fun _ _ read =>
        CodeAttribute.proper_of_read read.2
    refine handler.table.bind fun _ handlers valid => inside.table.bind fun _ attributes all => ?_
    refine .pure ⟨tiles, ?_, proper, ?_, ?_, all⟩
    · rintro rfl
      exact fits (.inl tiles.symm)
    · intro placed member target isTarget
      exact (startFlags_iff.1 (checkTargets_eq_ok.1 checked.2 placed member target isTarget)).2
    · intro handler member
      obtain ⟨start, target, stop, order⟩ := handlerIsValid_iff.1 (valid handler member)
      exact ⟨(startFlags_iff.1 start).2, (startFlags_iff.1 target).2,
        stop.imp_right fun stop => (startFlags_iff.1 stop).2, order⟩

end Code

namespace Attribute

theorem allProper_iff {depth : Nat} {attributes : List Attribute} :
    AllProper depth attributes ↔ ∀ item ∈ attributes, item.Proper depth := by
  induction attributes with
  | nil => simp [AllProper]
  | cons first rest ih => simp [AllProper, ih]

theorem componentsProper_of_forall {depth : Nat} {components : List (RecordComponent Attribute)}
    (each : ∀ component ∈ components, AllProper depth component.attributes) :
    ComponentsProper depth components := by
  induction components with
  | nil => trivial
  | cons first rest ih =>
    exact ⟨each first (by simp), ih fun other member => each other (by simp [member])⟩

theorem proper_of_read {fuel : Nat} {name : String} {info : Bytes} {item : Attribute}
    (done : Attribute.read pool fuel name info = .ok item) : item.Proper pool.depth := by
  induction fuel generalizing name info item with
  | zero => cases done
  | succ fuel ih =>
    unfold Attribute.read at done
    split at done
    case h_2 =>
      obtain ⟨constant, read, rfl⟩ := Except.map_eq_ok.1 done
      have gives : Gives (do pool.constant (← Reader.u2)) fun _ constant =>
          constant.nesting ≤ pool.depth :=
        Gives.any.bind fun _ _ _ => Gives.lift.mono fun _ _ found =>
          ConstantPool.nesting_of_constant found.2
      exact gives.all read
    case h_8 =>
      obtain ⟨annotations, read, rfl⟩ := Except.map_eq_ok.1 done
      exact TypeAnnotation.gives_readTable pool |>.all read
    case h_9 =>
      obtain ⟨annotations, read, rfl⟩ := Except.map_eq_ok.1 done
      exact TypeAnnotation.gives_readTable pool |>.all read
    case h_11 =>
      obtain ⟨components, read, rfl⟩ := Except.map_eq_ok.1 done
      have inside : Gives (do
          let part ← takeAttribute pool
          Attribute.read pool fuel part.1 part.2) fun _ item => item.Proper pool.depth :=
        Gives.any.bind fun _ _ _ => Gives.lift.mono fun _ _ read => ih read.2
      have gives : Gives (readComponent pool fuel) fun _ component =>
          AllProper pool.depth component.attributes :=
        Gives.any.bind fun _ _ _ => Gives.any.bind fun _ _ _ => inside.table.bind fun _ _ all =>
          .pure (allProper_iff.2 all)
      exact componentsProper_of_forall (gives.table.all read)
    case h_17 =>
      obtain ⟨body, read, rfl⟩ := Except.map_eq_ok.1 done
      exact (Code.gives_readBody pool).all read
    case h_18 =>
      cases done
      trivial
    case h_19 =>
      cases done
      simp only [Proper, known, List.mem_cons, List.not_mem_nil]
      tauto
    case h_13 =>
      have gives : Gives (do
          return Attribute.enclosingMethod (← pool.takeClassName) (← takeNameAndType? pool))
          fun _ item => item.Proper pool.depth :=
        Gives.any.bind fun _ _ _ => Gives.any.bind fun _ _ _ => .pure trivial
      exact gives.all done
    all_goals
      obtain ⟨parts, -, rfl⟩ := Except.map_eq_ok.1 done
      trivial

end Attribute

namespace RawAttribute

theorem proper_of_mapM {raws : List RawAttribute} {attributes : List Attribute}
    (done : raws.mapM (decode pool) = .ok attributes) :
    Attribute.AllProper pool.depth attributes := by
  refine Attribute.allProper_iff.2 fun item member => ?_
  obtain ⟨raw, -, decoded⟩ := Except.exists_of_mem_mapM done member
  obtain ⟨name, -, read⟩ := Except.bind_eq_ok.1 decoded
  exact Attribute.proper_of_read read

end RawAttribute

theorem Member.proper_of_mapM {raws : List RawMember} {members : List Member}
    (done : raws.mapM (RawMember.decode pool) = .ok members) :
    ∀ member ∈ members, Attribute.AllProper pool.depth member.attributes := by
  intro member inside
  obtain ⟨raw, -, decoded⟩ := Except.exists_of_mem_mapM done inside
  obtain ⟨attributes, each, decoded⟩ := Except.bind_eq_ok.1 decoded
  cases decoded
  exact RawAttribute.proper_of_mapM each

theorem findBootstrap_eq_ok {raws : List RawAttribute} {rows : List BootstrapEntry}
    (done : findBootstrap pool raws = .ok rows) :
    rows.length < 65536 ∧
      (rows ≠ [] → ∃ raw ∈ raws, pool.utf8 raw.name = .ok "BootstrapMethods") := by
  induction raws with
  | nil =>
    cases done
    simp
  | cons raw rest ih =>
    obtain ⟨name, named, done⟩ := Except.bind_eq_ok.1 done
    split at done
    case isTrue found =>
      have gives : Gives (table BootstrapEntry.read) fun _ rows => rows.length < 65536 :=
        fun _ _ _ read => Reader.length_table_lt read
      exact ⟨gives.all done, fun _ => ⟨raw, List.mem_cons_self, by rw [named, found]⟩⟩
    case isFalse =>
      obtain ⟨short, place⟩ := ih done
      refine ⟨short, fun deep => ?_⟩
      obtain ⟨other, member, named⟩ := place deep
      exact ⟨other, List.mem_cons_of_mem _ member, named⟩

theorem Skeleton.gives_pool {good : ConstantPool → Prop}
    (each : Gives ConstantPool.read fun _ pool => good pool) :
    Gives Skeleton.read fun _ skeleton => good skeleton.pool := by
  have header : Gives ClassHeader.read fun _ pair => good pair.2 := by
    refine Gives.any.bind fun _ found _ => ?_
    split
    · exact .throw
    · refine Gives.any.bind fun _ minor _ => Gives.any.bind fun _ major _ => ?_
      refine each.bind fun _ pool isGood => Gives.any.bind fun _ access _ => ?_
      refine Gives.any.bind fun _ name _ => Gives.any.bind fun _ superclass _ => ?_
      exact Gives.any.bind fun _ interfaces _ => .pure isGood
  refine header.bind fun _ pair isGood => Gives.any.bind fun _ fields _ => ?_
  exact Gives.any.bind fun _ methods _ => Gives.any.bind fun _ attributes _ => .pure isGood

theorem ClassFile.proper_of_parse {bytes : Bytes} {file : ClassFile} (done : parse bytes = .ok file) :
    file.pool.Sound ∧ file.model.Proper file.pool.depth := by
  obtain ⟨skeleton, read, done⟩ := Except.bind_eq_ok.1 done
  obtain ⟨rows, found, done⟩ := Except.bind_eq_ok.1 done
  obtain ⟨fields, fieldsRead, done⟩ := Except.bind_eq_ok.1 done
  obtain ⟨methods, methodsRead, done⟩ := Except.bind_eq_ok.1 done
  obtain ⟨attributes, attributesRead, done⟩ := Except.bind_eq_ok.1 done
  cases done
  obtain ⟨short, place⟩ := findBootstrap_eq_ok found
  have sound : skeleton.pool.Sound :=
    (Skeleton.gives_pool fun _ _ _ done => ConstantPool.sound_read done).all read
  refine ⟨sound.withBootstrap ?_, ?_⟩
  · simpa using short.le
  · refine ⟨Member.proper_of_mapM fieldsRead, Member.proper_of_mapM methodsRead,
      RawAttribute.proper_of_mapM attributesRead, fun deep => ?_⟩
    obtain ⟨raw, member, named⟩ := place fun empty => deep (by simp [empty, ConstantPool.depth])
    exact Except.mem_of_mapM attributesRead member (Except.bind_eq_ok.2 ⟨_, named, rfl⟩)

theorem ClassFile.own_of_parse {bytes : Bytes} {file : ClassFile} (done : parse bytes = .ok file) :
    ∀ entry ∈ file.pool.entries.toList, entry.IsOwn := by
  obtain ⟨skeleton, read, done⟩ := Except.bind_eq_ok.1 done
  have own : ∀ entry ∈ skeleton.pool.entries.toList, entry.IsOwn :=
    (Skeleton.gives_pool fun _ _ _ done => ConstantPool.own_read done).all read
  obtain ⟨rows, -, done⟩ := Except.bind_eq_ok.1 done
  obtain ⟨fields, -, done⟩ := Except.bind_eq_ok.1 done
  obtain ⟨methods, -, done⟩ := Except.bind_eq_ok.1 done
  obtain ⟨attributes, -, done⟩ := Except.bind_eq_ok.1 done
  cases done
  exact own

end ClassRenaming
