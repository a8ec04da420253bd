import ClassRenaming.Proofs.RecomputedBodies

/-!
Unreachable ranges and what they leave of the exception table. The ranges have all bytes of the
instructions that were not reached and none of those that were; the pieces of an entry cover what it
covered, without these ranges.
-/

namespace ClassRenaming

namespace Span

def Inside (range : Nat × Nat) (offset : Nat) : Prop := range.1 ≤ offset ∧ offset < range.2

theorem Chained.offset_lt_stop {start stop : Nat} {spans : List Span}
    (chained : Chained start spans stop) : ∀ span ∈ spans, span.placed.offset < span.stop := by
  induction spans generalizing start with
  | nil => simp
  | cons span rest ih =>
    obtain ⟨starts, ends, later⟩ := chained
    have pos := span.placed.instruction.size_pos start
    exact List.forall_mem_cons.2 ⟨by omega, ih later⟩

theorem Chained.ascending {start stop : Nat} {spans : List Span}
    (chained : Chained start spans stop) :
    spans.Pairwise fun first second => first.stop ≤ second.placed.offset := by
  have after {start stop : Nat} {spans : List Span} (chained : Chained start spans stop) :
      ∀ span ∈ spans, start ≤ span.placed.offset := by
    induction spans generalizing start with
    | nil => simp
    | cons span rest ih =>
      obtain ⟨starts, ends, later⟩ := chained
      refine List.forall_mem_cons.2 ⟨starts.ge, fun other member => ?_⟩
      have behind := ih later other member
      omega
  induction spans generalizing start with
  | nil => exact .nil
  | cons span rest ih =>
    obtain ⟨-, -, later⟩ := chained
    exact .cons (after later) (ih later)

theorem Chained.unique {start stop : Nat} {spans : List Span} (chained : Chained start spans stop)
    {first second : Span} (here : first ∈ spans) (there : second ∈ spans)
    (inside : first.placed.offset ≤ second.placed.offset)
    (before : second.placed.offset < first.stop) : first = second := by
  have longer := chained.offset_lt_stop
  obtain ⟨i, at_, rfl⟩ := List.mem_iff_getElem.1 here
  obtain ⟨j, below, rfl⟩ := List.mem_iff_getElem.1 there
  have ordered := List.pairwise_iff_getElem.1 chained.ascending
  rcases Nat.lt_trichotomy i j with less | same | more
  · have apart := ordered i j at_ below less
    omega
  · subst same
    rfl
  · have apart := ordered j i below at_ more
    have pos := longer _ there
    omega

theorem Chained.exists_span {start stop : Nat} {spans : List Span}
    (chained : Chained start spans stop) {offset : Nat} (low : start ≤ offset)
    (high : offset < stop) : ∃ span ∈ spans, Inside (span.placed.offset, span.stop) offset := by
  induction spans generalizing start with
  | nil =>
    have met : start = stop := chained
    omega
  | cons span rest ih =>
    obtain ⟨starts, ends, later⟩ := chained
    rcases Nat.lt_or_ge offset span.stop with inside | behind
    · exact ⟨span, List.mem_cons_self, by simp only [starts]; omega, inside⟩
    · obtain ⟨other, member, inside⟩ := ih later behind
      exact ⟨other, List.mem_cons_of_mem _ member, inside⟩

theorem inside_deadRanges {start stop : Nat} {spans : List Span}
    (chained : Chained start spans stop) {pending : Option (Nat × Nat)}
    (open_ : ∀ range ∈ pending, range.1 ≤ start ∧ range.2 = start) (offset : Nat) :
    (∃ range ∈ deadRanges pending spans, Inside range offset) ↔
      (∃ range ∈ pending, Inside range offset) ∨
        ∃ span ∈ spans, span.isDead ∧ Inside (span.placed.offset, span.stop) offset := by
  induction spans generalizing start pending with
  | nil => simp [deadRanges]
  | cons span rest ih =>
    obtain ⟨starts, ends, later⟩ := chained
    rw [deadRanges]
    split
    · next dead =>
      have wider : Inside ((pending.map Prod.fst).getD span.placed.offset, span.stop) offset ↔
          (∃ range ∈ pending, Inside range offset) ∨
            Inside (span.placed.offset, span.stop) offset := by
        cases pending with
        | none => simp
        | some range =>
          obtain ⟨before, meets⟩ := open_ range rfl
          simp only [Option.map_some, Option.getD_some, Option.mem_some_iff, Inside,
            exists_eq_left']
          omega
      rw [ih later]
      · simp only [Option.mem_some_iff, exists_eq_left', wider, List.exists_mem_cons_iff, dead,
          true_and, or_assoc]
      · rintro range ⟨⟩
        cases pending with
        | none => exact ⟨by simp; omega, rfl⟩
        | some range =>
          have before := (open_ range rfl).1
          exact ⟨by simp; omega, rfl⟩
    · next live =>
      simp only [List.mem_append, Option.mem_toList, or_and_right, exists_or]
      rw [ih later (by simp)]
      simp [live]

end Span

namespace Handler

def Covers (handler : Handler) (offset : Nat) : Prop :=
  handler.start ≤ offset ∧ offset < handler.stop

def SameCatch (piece whole : Handler) : Prop :=
  piece.target = whole.target ∧ piece.catchType = whole.catchType

theorem covers_without (range : Nat × Nat) (handler : Handler) (offset : Nat) :
    (∃ piece ∈ handler.without range, piece.Covers offset) ↔
      handler.Covers offset ∧ ¬ Span.Inside range offset := by
  simp only [without, List.mem_filter, List.mem_pair, Covers, Span.Inside]
  constructor
  · rintro ⟨piece, ⟨rfl | rfl, -⟩, covers⟩
    all_goals
      dsimp only at covers
      omega
  · rintro ⟨covers, outside⟩
    rcases Nat.lt_or_ge offset range.1 with low | high
    · refine ⟨_, ⟨.inl rfl, decide_eq_true ?_⟩, ?_⟩
      all_goals
        dsimp only
        omega
    · refine ⟨_, ⟨.inr rfl, decide_eq_true ?_⟩, ?_⟩
      all_goals
        dsimp only
        omega

theorem covers_carve (dead : List (Nat × Nat)) (handler : Handler) (offset : Nat) :
    (∃ piece ∈ handler.carve dead, piece.Covers offset) ↔
      handler.Covers offset ∧ ¬ ∃ range ∈ dead, Span.Inside range offset := by
  have each (pieces : List Handler) :
      (∃ piece ∈ dead.foldl (fun pieces range => pieces.flatMap (without range)) pieces,
        piece.Covers offset) ↔
          (∃ piece ∈ pieces, piece.Covers offset) ∧ ¬ ∃ range ∈ dead, Span.Inside range offset := by
    induction dead generalizing pieces with
    | nil => simp
    | cons range rest ih =>
      have first : (∃ piece ∈ pieces.flatMap (without range), piece.Covers offset) ↔
          (∃ piece ∈ pieces, piece.Covers offset) ∧ ¬ Span.Inside range offset := by
        constructor
        · rintro ⟨piece, member, covers⟩
          obtain ⟨whole, listed, part⟩ := List.mem_flatMap.1 member
          obtain ⟨covered, outside⟩ := (covers_without range whole offset).1 ⟨piece, part, covers⟩
          exact ⟨⟨whole, listed, covered⟩, outside⟩
        · rintro ⟨⟨whole, listed, covered⟩, outside⟩
          obtain ⟨piece, part, covers⟩ := (covers_without range whole offset).2 ⟨covered, outside⟩
          exact ⟨piece, List.mem_flatMap.2 ⟨whole, listed, part⟩, covers⟩
      rw [List.foldl_cons, ih, first, List.exists_mem_cons_iff, not_or, and_assoc]
  rw [carve, each]
  simp

theorem sameCatch_carve (dead : List (Nat × Nat)) {handler : Handler}
    (positive : handler.start < handler.stop) :
    ∀ piece ∈ handler.carve dead, piece.SameCatch handler ∧ piece.start < piece.stop := by
  have each (pieces : List Handler)
      (all : ∀ piece ∈ pieces, piece.SameCatch handler ∧ piece.start < piece.stop) :
      ∀ piece ∈ dead.foldl (fun pieces range => pieces.flatMap (without range)) pieces,
        piece.SameCatch handler ∧ piece.start < piece.stop := by
    induction dead generalizing pieces with
    | nil => exact all
    | cons range rest ih =>
      refine ih _ fun piece member => ?_
      obtain ⟨whole, listed, part⟩ := List.mem_flatMap.1 member
      obtain ⟨⟨target, type⟩, -⟩ := all whole listed
      obtain ⟨kind, nonempty⟩ := List.mem_filter.1 part
      refine ⟨?_, of_decide_eq_true nonempty⟩
      rcases List.mem_pair.1 kind with rfl | rfl <;> exact ⟨target, type⟩
  exact each [handler] (by simpa [SameCatch] using positive)

end Handler

end ClassRenaming
