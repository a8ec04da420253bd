import ClassRenaming.Proofs.StoredFrames
import ClassRenaming.Proofs.WrittenNumbers

/-!
The numbers that stack map frames are written as: tags that hold a distance or a number of types,
distances, lengths and offsets.
-/

namespace ClassRenaming

def VerificationType.words (move : Nat → Nat) (index : UInt16) : VerificationType → List Word
  | top => [.u1 0]
  | integer => [.u1 1]
  | float => [.u1 2]
  | double => [.u1 3]
  | long => [.u1 4]
  | null => [.u1 5]
  | uninitializedThis => [.u1 6]
  | object _ => [.u1 7, .u2 index.toNat]
  | uninitialized offset => [.u1 8, .u2 (move offset)]

inductive FramePart where
  | number (word : Word)
  | type (type : VerificationType)

namespace FramePart

def words (move : Nat → Nat) (index : UInt16) : FramePart → List Word
  | number word => [word]
  | type here => here.words move index

def Spelled (move : Nat → Nat) (parts : List FramePart) (bytes : Bytes) : Prop :=
  ∃ indices : List UInt16, indices.length = parts.length ∧
    Word.Spells ((parts.zip indices).flatMap fun (part, index) => part.words move index) bytes

end FramePart

open FramePart in
def FrameKind.parts (distance : Nat) : FrameKind → List FramePart
  | same => if distance < 64 then [number (.u1 distance)] else
    [number (.u1 251), number (.u2 distance)]
  | sameWithItem item => (if distance < 64 then [number (.u1 (64 + distance))] else
    [number (.u1 247), number (.u2 distance)]) ++ [type item]
  | chop count => [number (.u1 (251 - count.toNat)), number (.u2 distance)]
  | append types =>
    [number (.u1 (251 + types.length)), number (.u2 distance)] ++ types.map type
  | full locals stack => [number (.u1 255), number (.u2 distance)] ++
    (number (.u2 locals.length) :: locals.map type) ++
    (number (.u2 stack.length) :: stack.map type)

def Frame.parts (move : Nat → Nat) : Nat → List Frame → List FramePart
  | _, [] => []
  | base, frame :: rest =>
    frame.kind.parts (move frame.offset - base) ++ Frame.parts move (move frame.offset + 1) rest

variable {move : Nat → Nat}

namespace FramePart.Spelled

variable {parts others : List FramePart} {bytes more : Bytes}

theorem nil : Spelled move [] [] := ⟨[], rfl, .nil⟩

theorem append (front : Spelled move parts bytes) (back : Spelled move others more) :
    Spelled move (parts ++ others) (bytes ++ more) := by
  obtain ⟨indices, same, first⟩ := front
  obtain ⟨later, alike, second⟩ := back
  refine ⟨indices ++ later, by rw [List.length_append, List.length_append, same, alike], ?_⟩
  rw [List.zip_append same.symm, List.flatMap_append]
  exact first.append second

theorem number {word : Word} (spells : Word.Spells [word] bytes) :
    Spelled move [.number word] bytes := by
  refine ⟨[0], rfl, ?_⟩
  simpa [words] using spells

theorem type {here : VerificationType} (index : UInt16)
    (spells : Word.Spells (here.words move index) bytes) : Spelled move [.type here] bytes := by
  refine ⟨[index], rfl, ?_⟩
  simpa [words] using spells

end FramePart.Spelled

section Frames

open Word FramePart Reader

variable {pool after : ConstantPool} {bytes : Bytes}

theorem VerificationType.spelled_write {type : VerificationType}
    (written : type.write move pool = .ok (bytes, after)) : Spelled move [.type type] bytes := by
  cases type with
  | object name =>
    obtain ⟨index, middle, -, written⟩ := bind_eq_ok.1 written
    cases written
    exact .type index ((Spells.byte 7).append (.u2 rfl))
  | uninitialized offset =>
    rw [VerificationType.write] at written
    split at written
    case isTrue small =>
      cases written
      exact .type 0 ((Spells.byte 8).append (.u2 (by rw [Bytes.toNat_toUInt16 small])))
    case isFalse => cases written
  | _ =>
    cases written
    exact .type 0 (.u1 rfl)

theorem VerificationType.spelled_writeAll {types : List VerificationType}
    (written : writeAll move types pool = .ok (bytes, after)) :
    Spelled move (types.map .type) bytes := by
  induction types generalizing pool bytes with
  | nil =>
    cases written
    exact .nil
  | cons type types ih =>
    rw [writeAll, List.mapM_cons, map_eq_pure_bind] at written
    obtain ⟨parts, middle, each, written⟩ := bind_eq_ok.1 written
    obtain ⟨first, next, here, each⟩ := bind_eq_ok.1 each
    obtain ⟨others, last, there, each⟩ := bind_eq_ok.1 each
    cases each
    cases written
    have rest : writeAll move types next = .ok (others.flatten, after) := by
      rw [writeAll, map_eq_pure_bind]
      exact bind_eq_ok.2 ⟨others, after, there, rfl⟩
    exact (spelled_write here).append (ih rest)

theorem spelled_tableCount {length : Nat} (counts : Bytes.tableCount length = .ok bytes) :
    Spelled move [.number (.u2 length)] bytes := by
  obtain ⟨short, rfl⟩ := Bytes.tableCount_eq_ok.1 counts
  exact .number (.u2 (by rw [Bytes.toNat_toUInt16 short]))

theorem VerificationType.spelled_writeTable {types : List VerificationType}
    (written : writeTable move types pool = .ok (bytes, after)) :
    Spelled move (.number (.u2 types.length) :: types.map .type) bytes := by
  obtain ⟨count, middle, counts, written⟩ := bind_eq_ok.1 written
  obtain ⟨all, last, each, written⟩ := bind_eq_ok.1 written
  cases written
  exact (spelled_tableCount (lift_eq_ok.1 counts).1).append (spelled_writeAll each)

theorem FrameKind.Short.spelled_write {kind : FrameKind} {distance : Nat} (short : kind.Short)
    (small : distance < 65536)
    (written : kind.write move distance pool = .ok (bytes, after)) :
    Spelled move (kind.parts distance) bytes := by
  have tagged (tag : UInt8) {value : Int} (same : value = tag.toNat) :
      Spelled move [.number (.u1 value), .number (.u2 distance)]
        (tag :: Bytes.u2 distance.toUInt16) :=
    (Spelled.number (.u1 same)).append (.number (.u2 (by rw [Bytes.toNat_toUInt16 small])))
  cases kind with
  | same =>
    rw [FrameKind.write] at written
    rw [FrameKind.parts]
    split at written
    case isTrue below =>
      cases written
      rw [if_pos below]
      exact .number (.u1 (by rw [Bytes.toNat_toUInt8 (by omega)]))
    case isFalse above =>
      cases written
      rw [if_neg above]
      exact tagged 251 rfl
  | sameWithItem item =>
    obtain ⟨inner, middle, typed, written⟩ := bind_eq_ok.1 written
    rw [FrameKind.parts]
    split at written
    case isTrue below =>
      cases written
      have same : distance.toUInt8.toNat = distance := Bytes.toNat_toUInt8 (by omega)
      have sum : (64 + distance.toUInt8).toNat = 64 + distance := by
        rw [UInt8.toNat_add, same]
        exact Nat.mod_eq_of_lt (by omega : 64 + distance < 256)
      rw [if_pos below]
      have head : Spelled move [.number (.u1 (64 + distance))] [64 + distance.toUInt8] :=
        .number (.u1 (by omega))
      exact head.append (VerificationType.spelled_write typed)
    case isFalse above =>
      cases written
      rw [if_neg above]
      exact (tagged 247 rfl).append (VerificationType.spelled_write typed)
  | chop count =>
    cases written
    have few : count.toNat ≤ 3 := UInt8.le_iff_toNat_le.1 short.2
    have least : (251 - count).toNat = 251 - count.toNat :=
      UInt8.toNat_sub_of_le _ _ (UInt8.le_iff_toNat_le.2 (Nat.le_trans few (by decide)))
    exact tagged _ (by omega)
  | append types =>
    obtain ⟨inner, middle, typed, written⟩ := bind_eq_ok.1 written
    cases written
    have few : types.length ≤ 3 := short.2
    have same : types.length.toUInt8.toNat = types.length := Bytes.toNat_toUInt8 (by omega)
    have sum : (251 + types.length.toUInt8).toNat = 251 + types.length := by
      rw [UInt8.toNat_add, same]
      exact Nat.mod_eq_of_lt (by omega : 251 + types.length < 256)
    exact (tagged _ (by omega)).append (VerificationType.spelled_writeAll typed)
  | full locals stack =>
    obtain ⟨first, middle, before, written⟩ := bind_eq_ok.1 written
    obtain ⟨second, last, behind, written⟩ := bind_eq_ok.1 written
    cases written
    have locals := VerificationType.spelled_writeTable before
    have stack := VerificationType.spelled_writeTable behind
    exact ((tagged 255 rfl).append locals).append stack

theorem Frame.spelled_writeFrom {frames : List Frame} {base : Nat}
    (short : ∀ frame ∈ frames, frame.kind.Short)
    (written : Frame.writeFrom move base frames pool = .ok (bytes, after)) :
    Spelled move (Frame.parts move base frames) bytes := by
  induction frames generalizing base pool bytes with
  | nil =>
    cases written
    exact .nil
  | cons frame rest ih =>
    rw [Frame.writeFrom] at written
    dsimp only at written
    split at written
    · cases written
    split at written
    · cases written
    case isFalse near =>
      obtain ⟨first, middle, here, written⟩ := bind_eq_ok.1 written
      obtain ⟨others, last, there, written⟩ := bind_eq_ok.1 written
      cases written
      have shorter : ∀ other ∈ rest, other.kind.Short :=
        fun other member => short other (by simp [member])
      exact ((short frame (by simp)).spelled_write (by omega) here).append (ih shorter there)

theorem Frame.spelled_writeTable {frames : List Frame}
    (short : ∀ frame ∈ frames, frame.kind.Short)
    (written : Frame.writeTable move frames pool = .ok (bytes, after)) :
    Spelled move (.number (.u2 frames.length) :: Frame.parts move 0 frames) bytes := by
  obtain ⟨count, middle, counts, written⟩ := bind_eq_ok.1 written
  obtain ⟨all, last, each, written⟩ := bind_eq_ok.1 written
  cases written
  exact (spelled_tableCount (lift_eq_ok.1 counts).1).append (spelled_writeFrom short each)

end Frames

end ClassRenaming
