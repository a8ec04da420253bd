import ClassRenaming.Renaming
import Mathlib.Data.List.Infix

/-!
Where a source can occur in what a substitution leaves. A replaced text is made of runs that were
kept and of targets; between two of them is a seam. A run that was kept has lost every source that
was tried, so a source that is in no target can occur in the result across a seam only.
-/

namespace ClassRenaming

/-- A text whose characters say whether a seam lies in front of them. -/
abbrev Seamed := List (Char × Bool)

namespace Seamed

def plain (text : Seamed) : List Char := text.map Prod.fst

def ofPlain (text : List Char) : Seamed := text.map fun c => (c, false)

def inserted : List Char → Seamed
  | [] => []
  | c :: rest => (c, true) :: ofPlain rest

def replaceFrom (source target : List Char) : Nat → Bool → Seamed → Seamed
  | _, _, [] => []
  | skip + 1, behind, _ :: rest => replaceFrom source target skip behind rest
  | 0, behind, (c, seam) :: rest =>
    if source.isPrefixOf (c :: plain rest) then
      inserted target ++ replaceFrom source target (source.length - 1) true rest
    else (c, behind || seam) :: replaceFrom source target 0 false rest

def substitute : List (List Char × List Char) → Seamed → Seamed
  | [], text => text
  | (source, target) :: pairs, text =>
    if occursIn source text.plain then
      substitute pairs (replaceFrom source target 0 false text)
    else substitute pairs text

def untilSeam (text : Seamed) : List Char := plain (text.takeWhile fun c => !c.2)

def run : Seamed → List Char
  | [] => []
  | c :: rest => c.1 :: untilSeam rest

def Clear (part : List Char) : Seamed → Prop
  | [] => True
  | c :: rest => ¬ part <+: run (c :: rest) ∧ Clear part rest

/-- Some occurrence of `part` has a seam behind its first character. -/
def Crosses (part : List Char) (text : Seamed) : Prop :=
  ∃ before inner after, text = before ++ inner ++ after ∧ inner.plain = part ∧
    ∃ c ∈ inner.tail, c.2 = true

@[simp] theorem plain_nil : plain [] = [] := rfl

@[simp] theorem plain_cons (c : Char × Bool) (rest : Seamed) :
    plain (c :: rest) = c.1 :: plain rest := rfl

@[simp] theorem plain_append (front back : Seamed) :
    plain (front ++ back) = plain front ++ plain back := by simp [plain]

@[simp] theorem plain_ofPlain (text : List Char) : plain (ofPlain text) = text := by
  simp [plain, ofPlain, Function.comp_def]

@[simp] theorem plain_inserted (target : List Char) : plain (inserted target) = target := by
  cases target with
  | nil => rfl
  | cons c rest => simp [inserted]

/-! Seams change nothing in the text itself. -/

theorem plain_replaceFrom (source target : List Char) (skip : Nat) (behind : Bool)
    (text : Seamed) :
    plain (replaceFrom source target skip behind text) =
      ClassRenaming.replaceFrom source target skip text.plain := by
  induction text generalizing skip behind with
  | nil => cases skip <;> rfl
  | cons c rest ih =>
    cases skip with
    | succ skip => exact ih skip behind
    | zero =>
      simp only [replaceFrom, plain_cons, ClassRenaming.replaceFrom]
      split
      · rw [plain_append, plain_inserted, ih]
      · rw [plain_cons, ih]

theorem plain_substitute {pairs : List (List Char × List Char)}
    (nonempty : ∀ pair ∈ pairs, pair.1 ≠ []) (text : Seamed) :
    plain (substitute pairs text) = (substitute? pairs text.plain).getD text.plain := by
  induction pairs generalizing text with
  | nil => rfl
  | cons pair pairs ih =>
    obtain ⟨source, target⟩ := pair
    have tail : ∀ pair ∈ pairs, pair.1 ≠ [] := fun p hp => nonempty p (List.mem_cons_of_mem _ hp)
    have head : source.isEmpty = false := by
      simpa using nonempty (source, target) List.mem_cons_self
    simp only [substitute, substitute?]
    split
    · rw [ih tail, plain_replaceFrom]
      simp [replaceAll, head]
    · exact ih tail text

/-! What is kept between two seams. -/

theorem untilSeam_prefix_plain (text : Seamed) : untilSeam text <+: plain text :=
  (List.takeWhile_prefix _).map Prod.fst

theorem run_prefix_plain (text : Seamed) : run text <+: plain text := by
  cases text with
  | nil => exact List.prefix_refl _
  | cons c rest => exact List.cons_prefix_cons.2 ⟨rfl, untilSeam_prefix_plain rest⟩

theorem untilSeam_of_seam {c : Char × Bool} {rest : Seamed} (seam : c.2 = true) :
    untilSeam (c :: rest) = [] := by
  simp [untilSeam, seam]

theorem untilSeam_of_not_seam {c : Char × Bool} {rest : Seamed} (seam : c.2 = false) :
    untilSeam (c :: rest) = c.1 :: untilSeam rest := by
  simp [untilSeam, seam]

theorem untilSeam_behind (source target : List Char) (skip : Nat) (text : Seamed) :
    untilSeam (replaceFrom source target skip true text) = [] := by
  induction text generalizing skip with
  | nil => cases skip <;> rfl
  | cons c rest ih =>
    cases skip with
    | succ skip => exact ih skip
    | zero =>
      simp only [replaceFrom]
      split
      · cases target with
        | nil => exact ih _
        | cons d others => exact untilSeam_of_seam rfl
      · exact untilSeam_of_seam (by simp)

theorem untilSeam_ofPlain_append (target : List Char) {text : Seamed}
    (seam : untilSeam text = []) : untilSeam (ofPlain target ++ text) = target := by
  induction target with
  | nil => exact seam
  | cons c rest ih =>
    change untilSeam ((c, false) :: (ofPlain rest ++ text)) = _
    rw [untilSeam_of_not_seam rfl, ih]

theorem untilSeam_replaceFrom (source target : List Char) (text : Seamed) :
    untilSeam (replaceFrom source target 0 false text) <+: untilSeam text := by
  induction text with
  | nil => exact List.prefix_refl _
  | cons c rest ih =>
    simp only [replaceFrom]
    split
    · cases target with
      | nil =>
        rw [inserted, List.nil_append, untilSeam_behind]
        exact List.nil_prefix
      | cons d others =>
        rw [inserted, List.cons_append, untilSeam_of_seam rfl]
        exact List.nil_prefix
    · cases seam : c.2 with
      | true =>
        rw [untilSeam_of_seam (by simp)]
        exact List.nil_prefix
      | false =>
        rw [untilSeam_of_not_seam (by simp), untilSeam_of_not_seam seam]
        exact List.cons_prefix_cons.2 ⟨rfl, ih⟩

/-! Sources that are gone from every run. -/

theorem clear_ofPlain_append {part target : List Char} {text : Seamed} (elsewhere : ¬ part <:+: target)
    (seam : untilSeam text = []) (clear : Clear part text) :
    Clear part (ofPlain target ++ text) := by
  induction target with
  | nil => exact clear
  | cons c rest ih =>
    have inner : ¬ part <:+: rest := fun h => elsewhere (h.trans (List.suffix_cons c rest).isInfix)
    refine ⟨fun h => elsewhere ?_, ih inner⟩
    change part <+: c :: untilSeam (ofPlain rest ++ text) at h
    rw [untilSeam_ofPlain_append rest seam] at h
    exact h.isInfix

theorem clear_inserted_append {part target : List Char} {text : Seamed}
    (elsewhere : ¬ part <:+: target) (seam : untilSeam text = []) (clear : Clear part text) :
    Clear part (inserted target ++ text) := by
  cases target with
  | nil => exact clear
  | cons c rest =>
    have inner : ¬ part <:+: rest := fun h => elsewhere (h.trans (List.suffix_cons c rest).isInfix)
    refine ⟨fun h => elsewhere ?_, clear_ofPlain_append inner seam clear⟩
    change part <+: c :: untilSeam (ofPlain rest ++ text) at h
    rw [untilSeam_ofPlain_append rest seam] at h
    exact h.isInfix

theorem clear_replaceFrom {part source target : List Char} (elsewhere : ¬ part <:+: target)
    {text : Seamed} (clear : Clear part text) (skip : Nat) (behind : Bool) :
    Clear part (replaceFrom source target skip behind text) := by
  induction text generalizing skip behind with
  | nil => cases skip <;> exact trivial
  | cons c rest ih =>
    cases skip with
    | succ skip => exact ih clear.2 skip behind
    | zero =>
      simp only [replaceFrom]
      split
      · exact clear_inserted_append elsewhere (untilSeam_behind ..) (ih clear.2 _ _)
      · refine ⟨fun h => clear.1 (h.trans ?_), ih clear.2 _ _⟩
        exact List.cons_prefix_cons.2 ⟨rfl, untilSeam_replaceFrom source target rest⟩

theorem clear_source_replaceFrom {source target : List Char} (elsewhere : ¬ source <:+: target)
    (text : Seamed) (skip : Nat) (behind : Bool) :
    Clear source (replaceFrom source target skip behind text) := by
  induction text generalizing skip behind with
  | nil => cases skip <;> exact trivial
  | cons c rest ih =>
    cases skip with
    | succ skip => exact ih skip behind
    | zero =>
      simp only [replaceFrom]
      split
      · exact clear_inserted_append elsewhere (untilSeam_behind ..) (ih _ _)
      · next absent =>
        refine ⟨fun h => absent (List.isPrefixOf_iff_prefix.2 (h.trans ?_)), ih _ _⟩
        refine List.cons_prefix_cons.2 ⟨rfl, ?_⟩
        exact (untilSeam_replaceFrom source target rest).trans (untilSeam_prefix_plain rest)

theorem clear_of_absent {part : List Char} {text : Seamed} (absent : ¬ part <:+: text.plain) :
    Clear part text := by
  induction text with
  | nil => exact trivial
  | cons c rest ih =>
    refine ⟨fun h => absent (h.trans (run_prefix_plain _)).isInfix, ih fun h => absent ?_⟩
    exact h.trans (List.suffix_cons c.1 (plain rest)).isInfix

theorem clear_substitute {pairs : List (List Char × List Char)} {part : List Char}
    (elsewhere : ∀ pair ∈ pairs, ¬ part <:+: pair.2) (text : Seamed)
    (known : part ∈ pairs.map Prod.fst ∨ Clear part text) :
    Clear part (substitute pairs text) := by
  induction pairs generalizing text with
  | nil => exact known.resolve_left (by simp)
  | cons pair pairs ih =>
    obtain ⟨source, target⟩ := pair
    have here := elsewhere (source, target) List.mem_cons_self
    have later : ∀ pair ∈ pairs, ¬ part <:+: pair.2 := fun p hp =>
      elsewhere p (List.mem_cons_of_mem _ hp)
    simp only [substitute]
    split
    · rcases known with listed | clear
      · rcases List.mem_cons.1 listed with rfl | listed
        · exact ih later _ (.inr (clear_source_replaceFrom here text 0 false))
        · exact ih later _ (.inl listed)
      · exact ih later _ (.inr (clear_replaceFrom here clear 0 false))
    · next absent =>
      rcases known with listed | clear
      · rcases List.mem_cons.1 listed with rfl | listed
        · exact ih later _ (.inr (clear_of_absent fun h => absent (occursIn_iff.2 h)))
        · exact ih later _ (.inl listed)
      · exact ih later _ (.inr clear)

/-! Occurrences across a seam. -/

theorem Crosses.occurs {part : List Char} {text : Seamed} (crosses : Crosses part text) :
    part <:+: text.plain := by
  obtain ⟨before, inner, after, rfl, rfl, _⟩ := crosses
  exact ⟨before.plain, after.plain, by simp⟩

theorem untilSeam_append_of_free {front : Seamed} (back : Seamed)
    (free : ∀ c ∈ front, c.2 = false) :
    untilSeam (front ++ back) = front.plain ++ untilSeam back := by
  induction front with
  | nil => rfl
  | cons c rest ih =>
    rw [List.cons_append, untilSeam_of_not_seam (free c List.mem_cons_self),
      ih fun d hd => free d (List.mem_cons_of_mem _ hd)]
    rfl

theorem Clear.of_append {part : List Char} (front : Seamed) {back : Seamed}
    (clear : Clear part (front ++ back)) : Clear part back := by
  induction front with
  | nil => exact clear
  | cons c rest ih => exact ih clear.2

theorem crosses_of_clear {part : List Char} {text : Seamed} (nonempty : part ≠ [])
    (clear : Clear part text) (occurs : part <:+: text.plain) : Crosses part text := by
  obtain ⟨before, after, split⟩ := occurs
  obtain ⟨front, back, rfl, hfront, hback⟩ := List.map_eq_append_iff.1 split.symm
  obtain ⟨first, inner, rfl, hfirst, hinner⟩ := List.map_eq_append_iff.1 hfront
  refine ⟨first, inner, back, rfl, hinner, ?_⟩
  by_contra uncrossed
  cases inner with
  | nil => exact nonempty hinner.symm
  | cons c rest =>
    have free : ∀ d ∈ rest, d.2 = false := by simpa using uncrossed
    have clear := Clear.of_append first (by simpa using clear)
    apply clear.1
    change part <+: c.1 :: untilSeam (rest ++ back)
    rw [untilSeam_append_of_free back free, ← hinner]
    exact ⟨untilSeam back, rfl⟩

end Seamed

/-! Tables whose sources do not meet their targets. -/

/-- An end of one text is a beginning of the other, or the second lies in the first. -/
def Overlaps (source target : List Char) : Prop :=
  (∃ part, part ≠ [] ∧ part <:+ target ∧ part <+: source) ∨
    (∃ part, part ≠ [] ∧ part <+: target ∧ part <:+ source) ∨ target <:+: source

theorem overlaps_iff_tails {source target : List Char} :
    Overlaps source target ↔
      (∃ part ∈ target.tails, part ≠ [] ∧ part <+: source) ∨
        (∃ part ∈ source.tails, part ≠ [] ∧ part <+: target) ∨ target <:+: source := by
  simp only [Overlaps, List.mem_tails]
  constructor <;> rintro (⟨part, h⟩ | ⟨part, h⟩ | whole)
  · exact .inl ⟨part, h.2.1, h.1, h.2.2⟩
  · exact .inr (.inl ⟨part, h.2.2, h.1, h.2.1⟩)
  · exact .inr (.inr whole)
  · exact .inl ⟨part, h.2.1, h.1, h.2.2⟩
  · exact .inr (.inl ⟨part, h.2.1, h.2.2, h.1⟩)
  · exact .inr (.inr whole)

instance (source target : List Char) : Decidable (Overlaps source target) :=
  decidable_of_iff _ overlaps_iff_tails.symm

theorem prefix_replaceFrom {part source target text : List Char} (nonempty : part ≠ [])
    (starts : part <+: replaceFrom source target 0 text) :
    (part <+: text ∧ part ≠ source) ∨
      (∃ inner, inner ≠ [] ∧ inner <+: target ∧ inner <:+ part) ∨ target <:+: part := by
  induction text generalizing part with
  | nil => exact absurd (List.prefix_nil.1 starts) nonempty
  | cons c rest ih =>
    simp only [replaceFrom] at starts
    split at starts
    · rcases List.prefix_or_prefix_of_prefix starts (List.prefix_append target _) with inside | across
      · exact .inr (.inl ⟨part, nonempty, inside, List.suffix_refl part⟩)
      · exact .inr (.inr across.isInfix)
    · next absent =>
      have other (h : part <+: c :: rest) : part ≠ source := by
        intro same
        exact absent (List.isPrefixOf_iff_prefix.2 (same ▸ h))
      obtain rfl | ⟨tail, rfl, behind⟩ := List.prefix_cons_iff.1 starts
      · exact absurd rfl nonempty
      · by_cases last : tail = []
        · subst last
          have front : [c] <+: c :: rest := List.cons_prefix_cons.2 ⟨rfl, List.nil_prefix⟩
          exact .inl ⟨front, other front⟩
        · have wider : tail <:+ c :: tail := List.suffix_cons c tail
          rcases ih last behind with ⟨kept, _⟩ | ⟨inner, nonempty, front, back⟩ | whole
          · have front : c :: tail <+: c :: rest := List.cons_prefix_cons.2 ⟨rfl, kept⟩
            exact .inl ⟨front, other front⟩
          · exact .inr (.inl ⟨inner, nonempty, front, back.trans wider⟩)
          · exact .inr (.inr (whole.trans wider.isInfix))

theorem infix_replaceFrom {part source target text : List Char} (nonempty : part ≠ [])
    (apart : ¬ Overlaps part target) (elsewhere : ¬ part <:+: target) (skip : Nat)
    (occurs : part <:+: replaceFrom source target skip text) :
    part <:+: text ∧ part ≠ source := by
  have starts {text : List Char} (h : part <+: replaceFrom source target 0 text) :
      part <+: text ∧ part ≠ source := by
    rcases prefix_replaceFrom nonempty h with kept | front | whole
    · exact kept
    · exact absurd (.inr (.inl front)) apart
    · exact absurd (.inr (.inr whole)) apart
  induction text generalizing skip with
  | nil => cases skip <;> exact absurd (List.eq_nil_of_infix_nil occurs) nonempty
  | cons c rest ih =>
    have wider : rest <:+: c :: rest := (List.suffix_cons c rest).isInfix
    cases skip with
    | succ skip =>
      obtain ⟨kept, other⟩ := ih skip occurs
      exact ⟨kept.trans wider, other⟩
    | zero =>
      simp only [replaceFrom] at occurs
      split at occurs
      · rcases List.infix_append_iff.1 occurs with inside | behind | ⟨front, back, rfl, fits, across⟩
        · exact absurd inside elsewhere
        · obtain ⟨kept, other⟩ := ih _ behind
          exact ⟨kept.trans wider, other⟩
        · by_cases empty : front = []
          · subst empty
            obtain ⟨kept, other⟩ := ih _ across.isInfix
            exact ⟨kept.trans wider, other⟩
          · exact absurd (.inl ⟨front, empty, fits, List.prefix_append front back⟩) apart
      · next absent =>
        rcases List.infix_cons_iff.1 occurs with here | behind
        · have front : part <+: replaceFrom source target 0 (c :: rest) := by
            rw [replaceFrom, if_neg absent]
            exact here
          obtain ⟨kept, other⟩ := starts front
          exact ⟨kept.isInfix, other⟩
        · obtain ⟨kept, other⟩ := ih 0 behind
          exact ⟨kept.trans wider, other⟩

theorem not_infix_substitute {pairs : List (List Char × List Char)} {part : List Char}
    (nonempty : ∀ pair ∈ pairs, pair.1 ≠ []) (inhabited : part ≠ [])
    (apart : ∀ pair ∈ pairs, ¬ Overlaps part pair.2)
    (elsewhere : ∀ pair ∈ pairs, ¬ part <:+: pair.2) (text : List Char)
    (known : part ∈ pairs.map Prod.fst ∨ ¬ part <:+: text) :
    ¬ part <:+: (substitute? pairs text).getD text := by
  induction pairs generalizing text with
  | nil => exact known.resolve_left (by simp)
  | cons pair pairs ih =>
    obtain ⟨source, target⟩ := pair
    have later := ih (fun p hp => nonempty p (List.mem_cons_of_mem _ hp))
      (fun p hp => apart p (List.mem_cons_of_mem _ hp))
      (fun p hp => elsewhere p (List.mem_cons_of_mem _ hp))
    have plain : source.isEmpty = false := by
      simpa using nonempty (source, target) List.mem_cons_self
    have step (occurs : part <:+: replaceFrom source target 0 text) :
        part <:+: text ∧ part ≠ source :=
      infix_replaceFrom inhabited (apart (source, target) List.mem_cons_self)
        (elsewhere (source, target) List.mem_cons_self) 0 occurs
    simp only [substitute?, replaceAll, plain]
    split
    · refine later _ ?_
      rcases known with listed | absent
      · rcases List.mem_cons.1 listed with rfl | listed
        · exact .inr fun occurs => (step occurs).2 rfl
        · exact .inl listed
      · exact .inr fun occurs => absent (step occurs).1
    · next missing =>
      refine later text ?_
      rcases known with listed | absent
      · rcases List.mem_cons.1 listed with rfl | listed
        · exact .inr fun occurs => missing (occursIn_iff.2 occurs)
        · exact .inl listed
      · exact .inr absent

/-! What replacing does, from one occurrence to the next. -/

section Replacing

variable {source target text : List Char}

theorem replaceFrom_skip (before rest : List Char) :
    replaceFrom source target before.length (before ++ rest) = replaceFrom source target 0 rest := by
  induction before with
  | nil => rfl
  | cons c before ih => exact ih

theorem replaceFrom_append (nonempty : source ≠ []) (rest : List Char) :
    replaceFrom source target 0 (source ++ rest) = target ++ replaceFrom source target 0 rest := by
  cases source with
  | nil => exact absurd rfl nonempty
  | cons c source =>
    have front : (c :: source).isPrefixOf (c :: (source ++ rest)) = true :=
      List.isPrefixOf_iff_prefix.2 (List.prefix_append (c :: source) rest)
    rw [List.cons_append, replaceFrom, if_pos front]
    exact congrArg (target ++ ·) (replaceFrom_skip source rest)

theorem replaceFrom_cons {c : Char} (absent : ¬source <+: c :: text) :
    replaceFrom source target 0 (c :: text) = c :: replaceFrom source target 0 text := by
  rw [← List.isPrefixOf_iff_prefix] at absent
  rw [replaceFrom, if_neg absent]

theorem replaceFrom_induction (nonempty : source ≠ []) {motive : List Char → Prop} (nil : motive [])
    (found : ∀ rest, motive rest → motive (source ++ rest))
    (kept : ∀ c rest, ¬source <+: c :: rest → motive rest → motive (c :: rest)) :
    ∀ text, motive text := by
  intro text
  induction size : text.length using Nat.strongRecOn generalizing text with
  | ind size ih =>
    by_cases front : source <+: text
    · obtain ⟨rest, rfl⟩ := front
      have shorter : 0 < source.length := List.length_pos_of_ne_nil nonempty
      exact found rest (ih rest.length (by rw [← size, List.length_append]; omega) rest rfl)
    · cases text with
      | nil => exact nil
      | cons c rest => exact kept c rest front (ih rest.length (by rw [← size]; simp) rest rfl)

theorem mem_head?_replaceFrom (nonempty : target ≠ []) {c : Char}
    (first : c ∈ (replaceFrom source target 0 text).head?) : c ∈ text.head? ∨ c ∈ target := by
  cases text with
  | nil => exact .inl first
  | cons d rest =>
    rw [replaceFrom] at first
    split at first
    · obtain ⟨e, others, rfl⟩ := List.exists_cons_of_ne_nil nonempty
      obtain rfl : e = c := Option.some.inj first
      exact .inr List.mem_cons_self
    · exact .inl first

theorem replaceAll_of_ne_nil (nonempty : source ≠ []) :
    replaceAll source target text = replaceFrom source target 0 text := by
  rw [replaceAll, if_neg (by simpa using nonempty)]

end Replacing

end ClassRenaming
