import ClassRenaming.Proofs.LiveDispatch

/-!
A body whose dead code was replaced. Its spans are the old ones that were reached, and one for every
byte of the others; they have the same unreachable ranges, and replacing them, carving them out of the
exception table and framing them again changes nothing.
-/

namespace ClassRenaming

namespace Span

def deadByte (opcode : UInt8) (offset : Nat) : Span := ⟨simpleAt opcode offset, offset + 1, none⟩

@[simp] theorem isDead_deadByte (opcode : UInt8) (offset : Nat) : (deadByte opcode offset).isDead = true :=
  rfl

@[simp] theorem state_deadByte (opcode : UInt8) (offset : Nat) : (deadByte opcode offset).state = none :=
  rfl

@[simp] theorem placed_deadByte (opcode : UInt8) (offset : Nat) :
    (deadByte opcode offset).placed = simpleAt opcode offset := rfl

@[simp] theorem stop_deadByte (opcode : UInt8) (offset : Nat) :
    (deadByte opcode offset).stop = offset + 1 := rfl

@[simp] theorem offset_simpleAt (opcode : UInt8) (offset : Nat) :
    (simpleAt opcode offset).offset = offset := rfl

def deadBytes (last : UInt8) : Nat → Nat → List Span
  | 0, start => [deadByte last start]
  | count + 1, start => deadByte Opcode.nop start :: deadBytes last count (start + 1)

def replaced : List Span → List Span
  | [] => []
  | span :: rest =>
    if span.isDead then
      let last := if (rest.head?.map isDead).getD false then Opcode.nop else Opcode.athrow
      deadBytes last (span.stop - 1 - span.placed.offset) span.placed.offset ++ replaced rest
    else span :: replaced rest

variable {start stop : Nat} {spans rest : List Span} {span : Span}

/-! Bytes that were not reached. -/

section DeadBytes

variable (last : UInt8) (count : Nat)

theorem length_deadBytes : (deadBytes last count start).length = count + 1 := by
  induction count generalizing start with
  | zero => rfl
  | succ count ih => rw [deadBytes, List.length_cons, ih]

theorem isDead_of_mem_deadBytes : ∀ span ∈ deadBytes last count start, span.isDead := by
  induction count generalizing start with
  | zero => simp [deadBytes]
  | succ count ih => exact List.forall_mem_cons.2 ⟨rfl, ih⟩

theorem head?_deadBytes : ((deadBytes last count start ++ rest).head?.map isDead) = some true := by
  cases count <;> rfl

theorem map_placed_deadBytes : (deadBytes last count start).map placed =
    (List.range' start count).map (simpleAt Opcode.nop) ++ [simpleAt last (start + count)] := by
  induction count generalizing start with
  | zero => rfl
  | succ count ih =>
    rw [deadBytes, List.map_cons, ih, List.range'_succ, List.map_cons, List.cons_append,
      placed_deadByte, Nat.add_assoc, Nat.add_comm 1]

theorem chained_deadBytes (behind : Chained (start + count + 1) rest stop) :
    Chained start (deadBytes last count start ++ rest) stop := by
  induction count generalizing start with
  | zero => exact ⟨rfl, rfl, behind⟩
  | succ count ih =>
    have later : start + 1 + count + 1 = start + (count + 1) + 1 := by omega
    exact ⟨rfl, rfl, ih (later ▸ behind)⟩

theorem deadRanges_deadBytes (pending : Option (Nat × Nat)) :
    deadRanges pending (deadBytes last count start ++ rest) =
      deadRanges (some ((pending.map (·.1)).getD start, start + count + 1)) rest := by
  induction count generalizing start pending with
  | zero => rfl
  | succ count ih =>
    have later : start + 1 + count + 1 = start + (count + 1) + 1 := by omega
    rw [deadBytes, List.cons_append, deadRanges, if_pos (isDead_deadByte _ _), ih, later]
    rfl

theorem replaceDead_deadBytes : replaceDead (deadBytes last count start ++ rest) =
    (List.range' start count).map (simpleAt Opcode.nop) ++
      simpleAt (if (rest.head?.map isDead).getD false then Opcode.nop else Opcode.athrow)
        (start + count) :: replaceDead rest := by
  induction count generalizing start with
  | zero => simp [deadBytes, replaceDead]
  | succ count ih =>
    have later : start + 1 + count = start + (count + 1) := by omega
    rw [deadBytes, List.cons_append, replaceDead, if_pos (isDead_deadByte _ _), ih, head?_deadBytes,
      List.range'_succ, later]
    simp

theorem frames_deadBytes (marked : Nat → Bool) (inDead : Bool) (previous : List VerificationType) :
    frames marked inDead previous (deadBytes last count start ++ rest) =
      if inDead then frames marked true previous rest
      else frame previous start deadState :: frames marked true [] rest := by
  induction count generalizing start inDead previous with
  | zero => rfl
  | succ count ih =>
    rw [deadBytes, List.cons_append, frames]
    simp only [state_deadByte, placed_deadByte, offset_simpleAt, ih, if_true]

theorem branchTargets_deadBytes :
    branchTargets (deadBytes last count start ++ rest) = branchTargets rest := by
  have empty : branchTargets (deadBytes last count start) = [] :=
    List.flatMap_eq_nil_iff.2 fun span member => if_pos (isDead_of_mem_deadBytes last count span member)
  unfold branchTargets at empty ⊢
  rw [List.flatMap_append, empty, List.nil_append]

end DeadBytes

/-! The spans of the replaced body. -/

theorem head?_replaced (spans : List Span) :
    (replaced spans).head?.map isDead = spans.head?.map isDead := by
  cases spans with
  | nil => rfl
  | cons span rest =>
    rw [replaced]
    split
    · next dead => rw [head?_deadBytes, List.head?_cons, Option.map_some, dead]
    · rfl

theorem replaced_of_dead (dead : span.isDead) (rest : List Span) :
    replaced (span :: rest) =
      deadBytes (if (rest.head?.map isDead).getD false then Opcode.nop else Opcode.athrow)
        (span.stop - 1 - span.placed.offset) span.placed.offset ++ replaced rest := by
  rw [replaced, if_pos dead]

theorem replaced_of_live (live : ¬ span.isDead) (rest : List Span) :
    replaced (span :: rest) = span :: replaced rest := by
  rw [replaced, if_neg live]

theorem Chained.stop_of_cons (chained : Chained start (span :: rest) stop) :
    span.placed.offset + (span.stop - 1 - span.placed.offset) + 1 = span.stop := by
  obtain ⟨starts, ends, -⟩ := chained
  have positive := span.placed.instruction.size_pos start
  omega

theorem chained_replaced (chained : Chained start spans stop) :
    Chained start (replaced spans) stop := by
  induction spans generalizing start with
  | nil => exact chained
  | cons span rest ih =>
    have last := chained.stop_of_cons
    obtain ⟨rfl, ends, later⟩ := chained
    by_cases dead : span.isDead
    · rw [replaced_of_dead dead]
      apply chained_deadBytes
      rw [last]
      exact ih later
    · rw [replaced_of_live dead]
      exact ⟨rfl, ends, ih later⟩

theorem map_placed_replaced (chained : Chained start spans stop) :
    (replaced spans).map placed = replaceDead spans := by
  induction spans generalizing start with
  | nil => rfl
  | cons span rest ih =>
    have last := chained.stop_of_cons
    have later := ih chained.2.2
    by_cases dead : span.isDead
    · have front : span.placed.offset + (span.stop - 1 - span.placed.offset) = span.stop - 1 := by omega
      rw [replaced_of_dead dead, List.map_append, map_placed_deadBytes, later, replaceDead, if_pos dead,
        front, List.append_assoc]
      rfl
    · rw [replaced_of_live dead, replaceDead, if_neg dead, List.map_cons, later]

theorem deadRanges_replaced (chained : Chained start spans stop) (pending : Option (Nat × Nat)) :
    deadRanges pending (replaced spans) = deadRanges pending spans := by
  induction spans generalizing start pending with
  | nil => rfl
  | cons span rest ih =>
    have last := chained.stop_of_cons
    have later := ih chained.2.2
    by_cases dead : span.isDead
    · rw [replaced_of_dead dead, deadRanges_deadBytes, later, last, deadRanges, if_pos dead]
    · rw [replaced_of_live dead, deadRanges, deadRanges, if_neg dead, if_neg dead, later]

theorem replaceDead_replaced (chained : Chained start spans stop) :
    replaceDead (replaced spans) = replaceDead spans := by
  induction spans generalizing start with
  | nil => rfl
  | cons span rest ih =>
    have last := chained.stop_of_cons
    have later := ih chained.2.2
    by_cases dead : span.isDead
    · have front : span.placed.offset + (span.stop - 1 - span.placed.offset) = span.stop - 1 := by omega
      rw [replaced_of_dead dead, replaceDead_deadBytes, head?_replaced, later, front, replaceDead,
        if_pos dead]
    · rw [replaced_of_live dead, replaceDead, replaceDead, if_neg dead, if_neg dead, later]

theorem frames_replaced (chained : Chained start spans stop) (marked : Nat → Bool) (inDead : Bool)
    (previous : List VerificationType) :
    frames marked inDead previous (replaced spans) = frames marked inDead previous spans := by
  induction spans generalizing start inDead previous with
  | nil => rfl
  | cons span rest ih =>
    have later := ih chained.2.2
    by_cases dead : span.isDead
    · rw [replaced_of_dead dead, frames_deadBytes, later, later, frames, Option.isNone_iff_eq_none.1 dead]
    · rw [replaced_of_live dead, frames, frames]
      simp only [later]

theorem branchTargets_replaced (spans : List Span) :
    branchTargets (replaced spans) = branchTargets spans := by
  induction spans with
  | nil => rfl
  | cons span rest ih =>
    have cons (others : List Span) : branchTargets (span :: others) =
        (if span.isDead then [] else span.placed.instruction.branchTargets) ++ branchTargets others := rfl
    by_cases dead : span.isDead
    · rw [replaced_of_dead dead, branchTargets_deadBytes, ih, cons, if_pos dead, List.nil_append]
    · rw [replaced_of_live dead, cons, ih, cons]

/-! Where a span is in the replaced body. -/

def width (span : Span) : Nat := if span.isDead then span.stop - 1 - span.placed.offset + 1 else 1

def place : List Span → Nat → Nat
  | span :: rest, position + 1 => span.width + place rest position
  | _, _ => 0

theorem place_zero (spans : List Span) : place spans 0 = 0 := by
  cases spans <;> rfl

theorem place_cons (span : Span) (rest : List Span) (position : Nat) :
    place (span :: rest) (position + 1) = span.width + place rest position := rfl

theorem replaced_cons (span : Span) (rest : List Span) :
    ∃ front, replaced (span :: rest) = front ++ replaced rest ∧ front.length = span.width ∧
      (∀ other ∈ front, span.isDead → other.isDead) ∧ (¬ span.isDead → front = [span]) := by
  by_cases dead : span.isDead
  · refine ⟨_, replaced_of_dead dead rest, ?_, ?_, fun live => absurd dead live⟩
    · rw [length_deadBytes, width, if_pos dead]
    · intro other member _
      exact isDead_of_mem_deadBytes _ _ other member
  · refine ⟨[span], replaced_of_live dead rest, ?_, ?_, fun _ => rfl⟩
    · rw [width, if_neg dead, List.length_singleton]
    · intro _ _ no
      exact absurd no dead

theorem place_succ {position : Nat} (here : spans[position]? = some span) (live : ¬ span.isDead) :
    place spans (position + 1) = place spans position + 1 := by
  induction spans generalizing position with
  | nil => cases here
  | cons first rest ih =>
    cases position with
    | zero =>
      cases here
      rw [place_cons, width, if_neg live, place_zero, place_zero]
    | succ position =>
      rw [place_cons, place_cons, ih here, Nat.add_assoc]

theorem getElem?_replaced {position : Nat} (here : spans[position]? = some span)
    (live : ¬ span.isDead) : (replaced spans)[place spans position]? = some span := by
  induction spans generalizing position with
  | nil => cases here
  | cons first rest ih =>
    obtain ⟨front, split, length, -, alive⟩ := replaced_cons first rest
    cases position with
    | zero =>
      cases here
      rw [split, alive live, place_zero]
      rfl
    | succ position =>
      rw [split, place_cons, ← length, List.getElem?_append_right (Nat.le_add_right _ _),
        Nat.add_sub_cancel_left]
      exact ih here

theorem exists_place {position : Nat} (here : (replaced spans)[position]? = some span)
    (live : ¬ span.isDead) : ∃ old, spans[old]? = some span ∧ place spans old = position := by
  induction spans generalizing position with
  | nil => cases here
  | cons first rest ih =>
    obtain ⟨front, split, length, gone, alive⟩ := replaced_cons first rest
    rw [split] at here
    by_cases before : position < front.length
    · rw [List.getElem?_append_left before] at here
      have member := List.mem_of_getElem? here
      have first_live : ¬ first.isDead := fun dead => live (gone span member dead)
      rw [alive first_live] at here before
      obtain rfl : position = 0 := by simpa using before
      exact ⟨0, here, place_zero _⟩
    · rw [List.getElem?_append_right (by omega)] at here
      obtain ⟨old, there, same⟩ := ih here
      refine ⟨old + 1, there, ?_⟩
      rw [place_cons, same, ← length]
      omega

theorem zipped_of_chained (chained : Chained start spans stop) :
    zipped (spans.map placed) stop (spans.map state) = spans := by
  induction spans generalizing start with
  | nil => rfl
  | cons span rest ih =>
    have later := ih chained.2.2
    have next := chained.2.2
    cases rest with
    | nil =>
      cases next
      rfl
    | cons second rest =>
      have ends := next.1
      have first : (⟨span.placed, second.placed.offset, span.state⟩ : Span) = span := by rw [ends]
      calc
        zipped ((span :: second :: rest).map placed) stop ((span :: second :: rest).map state) =
            ⟨span.placed, second.placed.offset, span.state⟩ ::
              zipped ((second :: rest).map placed) stop ((second :: rest).map state) := rfl
        _ = span :: second :: rest := by rw [first, later]

end Span

end ClassRenaming
