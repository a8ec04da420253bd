import ClassRenaming.ClassFile.Reading
import ClassRenaming.Proofs.Reads

/-!
No class file is the beginning of another one. Up to the last attribute a class is read from front to
back, so more bytes at the end change nothing about what was read, and fewer leave a reader where it
was until they run out. What follows the last attribute is refused.
-/

namespace ClassRenaming

/-- What the reader makes of some bytes it makes of all that begin with them, unless it needed more. -/
structure Streams {α : Type} (reader : Reader α) : Prop where
  ok : ∀ {front left : Bytes} {value : α}, reader front = .ok (value, left) →
    ∀ more, reader (front ++ more) = .ok (value, left ++ more)
  error : ∀ {front : Bytes} {cause : FormatError}, reader front = .error cause →
    cause ≠ .unexpectedEnd → ∀ more, reader (front ++ more) = .error cause

namespace Streams

open Reader

variable {α β : Type} {reader : Reader α}

theorem of_ok (ok : ∀ {front left : Bytes} {value : α}, reader front = .ok (value, left) →
      ∀ more, reader (front ++ more) = .ok (value, left ++ more))
    (short : ∀ {front : Bytes} {cause : FormatError}, reader front = .error cause →
      cause = .unexpectedEnd) : Streams reader :=
  ⟨ok, fun failed other => absurd (short failed) other⟩

theorem u1 : Streams Reader.u1 := by
  refine of_ok (fun done more => ?_) fun failed => ?_
  · unfold Reader.u1 at done
    split at done <;> cases done
    rfl
  · unfold Reader.u1 at failed
    split at failed <;> cases failed
    rfl

theorem u2 : Streams Reader.u2 := by
  refine of_ok (fun done more => ?_) fun failed => ?_
  · unfold Reader.u2 at done
    split at done <;> cases done
    rfl
  · unfold Reader.u2 at failed
    split at failed <;> cases failed
    rfl

theorem u4 : Streams Reader.u4 := by
  refine of_ok (fun done more => ?_) fun failed => ?_
  · unfold Reader.u4 at done
    split at done <;> cases done
    rfl
  · unfold Reader.u4 at failed
    split at failed <;> cases failed
    rfl

theorem splitExact_append_of_some {count : Nat} {front taken left : Bytes}
    (done : Bytes.splitExact count front = some (taken, left)) (more : Bytes) :
    Bytes.splitExact count (front ++ more) = some (taken, left ++ more) := by
  obtain ⟨rfl, rfl⟩ := append_of_splitExact done
  rw [List.append_assoc]
  exact Bytes.splitExact_append taken (left ++ more)

theorem take (count : Nat) : Streams (Reader.take count) := by
  refine of_ok (fun done more => ?_) fun failed => ?_
  · unfold Reader.take at done ⊢
    split at done
    · next found =>
      cases done
      rw [splitExact_append_of_some found]
    · cases done
  · unfold Reader.take at failed
    split at failed <;> cases failed
    rfl

/-! Readers put together from others. -/

theorem pure (value : α) : Streams (pure value : Reader α) where
  ok done more := by
    obtain ⟨rfl, rfl⟩ := pure_eq_ok.1 done
    rfl
  error failed := by cases failed

theorem lift (action : Except FormatError α) : Streams (liftM action : Reader α) where
  ok done more := by
    obtain ⟨found, rfl⟩ := lift_eq_ok.1 done
    exact lift_eq_ok.2 ⟨found, rfl⟩
  error failed other more := by
    cases action with
    | error cause =>
      cases failed
      rfl
    | ok value => cases failed

theorem throw (cause : FormatError) : Streams (throw cause : Reader α) :=
  lift (.error cause)

theorem bind {next : α → Reader β} (first : Streams reader) (later : ∀ value, Streams (next value)) :
    Streams (reader >>= next) where
  ok done more := by
    obtain ⟨value, middle, here, there⟩ := bind_eq_ok.1 done
    exact bind_eq_ok.2 ⟨value, middle ++ more, first.ok here more, (later value).ok there more⟩
  error {front cause} failed other more := by
    have unfolded (bytes : Bytes) : (reader >>= next) bytes =
        (reader bytes >>= fun pair => next pair.1 pair.2) := rfl
    rw [unfolded] at failed ⊢
    cases here : reader front with
    | error early =>
      rw [here] at failed
      cases failed
      rw [first.error here other more]
      rfl
    | ok pair =>
      rw [here] at failed
      rw [first.ok here more]
      exact (later pair.1).error failed other more

theorem u8 : Streams Reader.u8 := u4.bind fun _ => u4.bind fun _ => .pure _

theorem ite {condition : Prop} [Decidable condition] {other : Reader α} (yes : Streams reader)
    (no : Streams other) : Streams (if condition then reader else other) := by
  split
  · exact yes
  · exact no

theorem many (item : Streams reader) (count : Nat) : Streams (Reader.many count reader) := by
  induction count with
  | zero => exact .pure []
  | succ count ih => exact item.bind fun first => ih.bind fun rest => .pure (first :: rest)

theorem table (item : Streams reader) : Streams (Reader.table reader) :=
  u2.bind fun count => item.many count.toNat

end Streams

/-! A class up to the bodies of its attributes. -/

theorem PoolEntry.streams_read : Streams PoolEntry.read := by
  have one {f : UInt16 → PoolEntry} : Streams (do return f (← Reader.u2)) := .bind .u2 fun _ => .pure _
  have two {f : UInt16 → UInt16 → PoolEntry} : Streams (do return f (← Reader.u2) (← Reader.u2)) :=
    .bind .u2 fun _ => .bind .u2 fun _ => .pure _
  refine Streams.u1.bind fun tag => ?_
  split
  case h_1 =>
    exact .bind .u2 fun count => .bind (.take count.toNat) fun stored => .bind (.lift _) fun _ => .pure _
  case h_2 => exact .bind .u4 fun _ => .pure _
  case h_3 => exact .bind .u4 fun _ => .pure _
  case h_4 => exact .bind .u8 fun _ => .pure _
  case h_5 => exact .bind .u8 fun _ => .pure _
  case h_12 => exact .bind .u1 fun _ => .bind .u2 fun _ => .pure _
  case h_18 => exact .throw _
  all_goals first | exact one | exact two

theorem PoolEntry.streams_readMany (slots : Nat) : Streams (readMany slots) := by
  induction slots using Nat.strongRecOn with
  | ind slots ih =>
    cases slots with
    | zero => exact .pure []
    | succ slots =>
      rw [readMany]
      refine streams_read.bind fun entry => .ite ?_ ?_
      · cases slots with
        | zero => exact .throw _
        | succ slots => exact (ih slots (by omega)).bind fun _ => .pure _
      · exact (ih slots (by omega)).bind fun _ => .pure _

namespace ConstantPool

theorem streams_read : Streams ConstantPool.read :=
  Streams.u2.bind fun _ => (PoolEntry.streams_readMany _).bind fun _ => .pure _

variable (pool : ConstantPool)

theorem streams_takeUtf8 : Streams pool.takeUtf8 := Streams.u2.bind fun _ => .lift _

theorem streams_takeClassName : Streams pool.takeClassName := Streams.u2.bind fun _ => .lift _

theorem streams_takeClassName? : Streams pool.takeClassName? := Streams.u2.bind fun _ => .lift _

end ConstantPool

theorem ClassHeader.streams_read : Streams ClassHeader.read := by
  refine Streams.u4.bind fun found => ?_
  split
  · exact .throw _
  · refine Streams.u2.bind fun minor => Streams.u2.bind fun major => ?_
    refine ConstantPool.streams_read.bind fun pool => Streams.u2.bind fun access => ?_
    refine pool.streams_takeClassName.bind fun name => ?_
    refine pool.streams_takeClassName?.bind fun superclass => ?_
    exact pool.streams_takeClassName.table.bind fun interfaces => .pure _

theorem RawAttribute.streams_read : Streams RawAttribute.read :=
  Streams.u2.bind fun _ => Streams.u4.bind fun length => (Streams.take length.toNat).bind fun _ => .pure _

theorem RawMember.streams_read (pool : ConstantPool) : Streams (RawMember.read pool) :=
  Streams.u2.bind fun _ => pool.streams_takeUtf8.bind fun _ => pool.streams_takeUtf8.bind fun _ =>
    RawAttribute.streams_read.table.bind fun _ => .pure _

theorem Skeleton.streams_read : Streams Skeleton.read := by
  refine ClassHeader.streams_read.bind fun (_, pool) => ?_
  refine (RawMember.streams_read pool).table.bind fun fields => ?_
  refine (RawMember.streams_read pool).table.bind fun methods => ?_
  exact RawAttribute.streams_read.table.bind fun attributes => .pure _

namespace Streams

open Reader

variable {α : Type} {reader : Reader α} {leftover : Nat → FormatError} {bytes : Bytes} {value : α}

theorem all_front (streams : Streams reader) (done : reader.all bytes leftover = .ok value)
    {front more : Bytes} (split : bytes = front ++ more) (nonempty : more ≠ []) :
    reader.all front leftover = .error .unexpectedEnd := by
  have whole := all_eq_ok.1 done
  rw [split] at whole
  unfold all
  cases here : reader front with
  | ok pair =>
    have left := congrArg Prod.snd (Except.ok.inj ((streams.ok here more).symm.trans whole))
    exact absurd (List.append_eq_nil_iff.1 left).2 nonempty
  | error cause =>
    by_cases short : cause = .unexpectedEnd
    · rw [short]
    · rw [streams.error here short more] at whole
      cases whole

theorem all_append (streams : Streams reader) (done : reader.all bytes leftover = .ok value)
    {more : Bytes} (nonempty : more ≠ []) :
    reader.all (bytes ++ more) leftover = .error (leftover more.length) := by
  have longer := streams.ok (all_eq_ok.1 done) more
  obtain ⟨first, rest, rfl⟩ := List.exists_cons_of_ne_nil nonempty
  rw [all, longer]
  rfl

end Streams

/-- The bytes of a class are no class file without the last of them, where they end too early, and
none with more behind them, which are left over. -/
theorem ClassFile.parse_prefixFree {bytes : Bytes} {file : ClassFile} (parsed : parse bytes = .ok file) :
    (∀ front, front <+: bytes → front ≠ bytes → parse front = .error .unexpectedEnd) ∧
      ∀ longer, bytes <+: longer → longer ≠ bytes →
        parse longer = .error (.trailingBytes (longer.length - bytes.length)) := by
  obtain ⟨skeleton, read, -⟩ := Except.bind_eq_ok.1 parsed
  constructor
  · rintro front ⟨more, split⟩ proper
    have nonempty : more ≠ [] := by
      rintro rfl
      exact proper (by simpa using split)
    rw [parse, Skeleton.streams_read.all_front read split.symm nonempty]
    rfl
  · rintro longer ⟨more, rfl⟩ proper
    have nonempty : more ≠ [] := by
      rintro rfl
      exact proper (List.append_nil bytes)
    rw [parse, Skeleton.streams_read.all_append read nonempty, List.length_append, Nat.add_sub_cancel_left]
    rfl

/-- The shortest class files have no superclass and no members. -/
def bareBytes : Bytes :=
  [0xCA, 0xFE, 0xBA, 0xBE, 0, 0, 0, 52, 0, 3, 1, 0, 1, 0x41, 7, 0, 1, 0, 0x21, 0, 2, 0, 0, 0, 0, 0, 0,
    0, 0, 0, 0]

theorem bareBytes_prefixFree : (∃ file, ClassFile.parse bareBytes = .ok file) ∧
    ClassFile.parse bareBytes.dropLast = .error .unexpectedEnd ∧
      ClassFile.parse (bareBytes ++ [0]) = .error (.trailingBytes 1) := by
  have parsed : ∃ file, ClassFile.parse bareBytes = .ok file := ⟨_, rfl⟩
  obtain ⟨file, done⟩ := parsed
  obtain ⟨shorter, longer⟩ := ClassFile.parse_prefixFree done
  exact ⟨⟨file, done⟩, shorter _ (List.dropLast_prefix _) (by decide),
    longer _ (List.prefix_append _ _) (by decide)⟩

end ClassRenaming
