import ClassRenaming.Proofs.StoredAnnotations
import ClassRenaming.StackMap

/-!
Stack map frames are read back from their bytes, moved with the code. Their distances are counted
from one moved offset to the next, so adding them up again gives the moved offsets.
-/

namespace ClassRenaming

open Reader

variable {depth : Nat} {move : Nat → Nat}

theorem interns_verificationType (type : VerificationType) :
    Interns depth (type.write move) fun pool bytes =>
      Reads (VerificationType.read pool) bytes (type.moved move) := by
  cases type with
  | object name =>
    refine (interns_className _).bind fun index => .pure fun pool _ named => ?_
    exact .tagged ((reads_takeClassName named).last (.pure _))
  | uninitialized offset =>
    rw [VerificationType.write]
    split
    case isTrue small =>
      refine .pure fun pool _ => .tagged ((Reads.u2 _).last ?_)
      rw [Bytes.toNat_toUInt16 small]
      exact .pure _
    case isFalse => exact .throw
  | _ => exact .pure fun pool _ => .tagged (.pure _)

theorem interns_writeAll (types : List VerificationType) :
    Interns depth (VerificationType.writeAll move types) fun pool bytes =>
      Reads (many types.length (VerificationType.read pool)) bytes
        (types.map (VerificationType.moved move)) := by
  refine (Interns.mapM fun type _ => interns_verificationType type).map
    fun pool _ parts each => ?_
  have all := Reads.many (List.forall₂_map_right_iff.2 each.flip)
  rwa [List.length_map] at all

theorem interns_writeTable (types : List VerificationType) :
    Interns depth (VerificationType.writeTable move types) fun pool bytes =>
      Reads (table (VerificationType.read pool)) bytes (types.map (VerificationType.moved move)) := by
  refine (Interns.lift fun count counts _ _ => counts).bind fun count => ?_
  refine (interns_writeAll _).bind fun bytes => .pure fun pool _ all counts => ?_
  exact Reads.counted counts all

def FrameKind.Short : FrameKind → Prop
  | .chop count => 1 ≤ count ∧ count ≤ 3
  | .append types => 1 ≤ types.length ∧ types.length ≤ 3
  | _ => True

theorem interns_frameKind {kind : FrameKind} {distance : Nat} (short : kind.Short)
    (small : distance < 65536) :
    Interns depth (kind.write move distance) fun pool bytes =>
      Reads (Frame.readRelative pool) bytes ⟨distance, kind.map (VerificationType.moved move)⟩ := by
  have far : distance.toUInt16.toNat = distance := Bytes.toNat_toUInt16 small
  cases kind with
  | same =>
    rw [FrameKind.write]
    split
    case isTrue below =>
      have same : distance.toUInt8.toNat = distance := Bytes.toNat_toUInt8 (by omega)
      have byte : distance.toUInt8 ≤ 63 := Bytes.toUInt8_le (Nat.le_of_lt_succ below)
      refine .pure fun pool _ => .tagged ?_
      rw [if_pos (by grind), same]
      exact .pure _
    case isFalse =>
      refine .pure fun pool _ => .tagged ((Reads.u2 _).last ?_)
      rw [far]
      exact .pure _
  | sameWithItem item =>
    refine (interns_verificationType _).bind fun bytes => ?_
    split
    case isTrue below =>
      have same : distance.toUInt8.toNat = distance := Bytes.toNat_toUInt8 (by omega)
      have byte : distance.toUInt8 ≤ 63 := Bytes.toUInt8_le (Nat.le_of_lt_succ below)
      refine .pure fun pool _ reads => .tagged ?_
      have back : 64 + distance.toUInt8 - 64 = distance.toUInt8 := by grind
      rw [if_neg (by grind), if_pos (by grind), back, same]
      exact reads.last (.pure _)
    case isFalse =>
      refine .pure fun pool _ reads => .tagged ((Reads.u2 _).bind ?_)
      rw [far]
      exact reads.last (.pure _)
  | chop count =>
    simp only [FrameKind.Short] at short
    refine .pure fun pool _ => .tagged ?_
    rw [if_neg (by grind), if_neg (by grind), if_neg (by grind)]
    refine (Reads.u2 _).last ?_
    have back : 251 - (251 - count) = count := by grind
    rw [if_neg (by grind), if_pos (by grind), far, back]
    exact .pure _
  | append types =>
    simp only [FrameKind.Short] at short
    refine (interns_writeAll _).bind fun bytes => .pure fun pool _ all => .tagged ?_
    have length : types.length.toUInt8.toNat = types.length := Bytes.toNat_toUInt8 (by omega)
    have positive : 1 ≤ types.length.toUInt8 := Bytes.le_toUInt8 short.1 (by omega)
    have few : types.length.toUInt8 ≤ 3 := Bytes.toUInt8_le short.2
    have back : 251 + types.length.toUInt8 - 251 = types.length.toUInt8 := by grind
    rw [if_neg (by grind), if_neg (by grind), if_neg (by grind)]
    refine (Reads.u2 _).bind ?_
    rw [if_neg (by grind), if_neg (by grind), if_neg (by grind), if_pos (by grind), far, back, length]
    exact all.last (.pure _)
  | full locals stack =>
    refine (interns_writeTable locals).bind fun first => ?_
    refine (interns_writeTable stack).bind fun second => .pure fun pool _ later now => ?_
    simp only [List.cons_append, List.append_assoc]
    refine .tagged ((Reads.u2 _).bind ?_)
    rw [far]
    exact now.bind (later.last (.pure _))

theorem interns_frames (frames : List Frame) (base : Nat)
    (short : ∀ frame ∈ frames, frame.kind.Short) :
    Interns depth (Frame.writeFrom move base frames) fun pool bytes =>
      ∃ relative, Reads (many frames.length (Frame.readRelative pool)) bytes relative ∧
        Frame.absolute base relative = frames.map (Frame.moved move) := by
  induction frames generalizing base with
  | nil => exact .pure fun pool _ => ⟨[], .pure _, rfl⟩
  | cons frame frames ih =>
    rw [Frame.writeFrom]
    dsimp only
    split
    · exact .throw
    case isFalse above =>
      split
      · exact .throw
      case isFalse near =>
        refine (interns_frameKind (short frame (by simp)) (by omega)).bind fun first => ?_
        have shorter : ∀ other ∈ frames, other.kind.Short :=
          fun other member => short other (by simp [member])
        refine (ih (move frame.offset + 1) shorter).bind fun later => ?_
        refine .pure fun pool _ rest now => ?_
        obtain ⟨relative, reads, same⟩ := rest
        refine ⟨_, now.bind (reads.last (.pure _)), ?_⟩
        have back : base + (move frame.offset - base) = move frame.offset := by omega
        rw [Frame.absolute, back, same]
        rfl

theorem interns_frameTable {frames : List Frame} (short : ∀ frame ∈ frames, frame.kind.Short) :
    Interns depth (Frame.writeTable move frames) fun pool bytes =>
      Reads (Frame.readTable pool) bytes (frames.map (Frame.moved move)) := by
  refine (Interns.lift fun count counts _ _ => counts).bind fun count => ?_
  refine (interns_frames frames 0 short).bind fun bytes => .pure fun pool _ all counts => ?_
  obtain ⟨relative, reads, same⟩ := all
  rw [← same]
  exact (Reads.counted counts reads).last (.pure _)

end ClassRenaming
