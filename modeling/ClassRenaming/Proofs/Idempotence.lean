import ClassRenaming.Proofs.Substitution
import ClassRenaming.Settings.Basic

/-!
Renaming twice. A table that passes the check has no source in a target, so whatever is renamed
again lies across a seam between a target and its surroundings; and where no source overlaps a
target, nothing is renamed again. Without that an accepted table may rename its own results.
-/

namespace ClassRenaming

open Seamed (Crosses)

theorem substitute?_eq_none_iff {pairs : List (List Char × List Char)} {text : List Char} :
    substitute? pairs text = none ↔ ∀ pair ∈ pairs, ¬ pair.1 <:+: text := by
  induction pairs with
  | nil => simp [substitute?]
  | cons pair pairs ih =>
    obtain ⟨source, target⟩ := pair
    simp only [substitute?, List.forall_mem_cons]
    split
    · next found => simp [occursIn_iff.1 found]
    · next absent =>
      rw [ih]
      exact ⟨fun h => ⟨fun occurs => absent (occursIn_iff.2 occurs), h⟩, And.right⟩

theorem substitute?_again_iff {pairs : List (List Char × List Char)}
    (nonempty : ∀ pair ∈ pairs, pair.1 ≠ [])
    (apart : ∀ pair ∈ pairs, ∀ other ∈ pairs, ¬ pair.1 <:+: other.2) (text : List Char) :
    (substitute? pairs ((substitute? pairs text).getD text)).isSome ↔
      ∃ pair ∈ pairs, Crosses pair.1 (Seamed.substitute pairs (.ofPlain text)) := by
  have result := Seamed.plain_substitute nonempty (.ofPlain text)
  rw [Seamed.plain_ofPlain] at result
  rw [← result, Option.isSome_iff_ne_none, ne_eq, substitute?_eq_none_iff]
  constructor
  · intro found
    push Not at found
    obtain ⟨pair, member, occurs⟩ := found
    have listed : pair.1 ∈ pairs.map Prod.fst := List.mem_map_of_mem member
    have clear := Seamed.clear_substitute (apart pair member) (.ofPlain text) (.inl listed)
    exact ⟨pair, member, Seamed.crosses_of_clear (nonempty pair member) clear occurs⟩
  · rintro ⟨pair, member, crosses⟩ absent
    exact absent pair member crosses.occurs

theorem substitute?_again_eq_none {pairs : List (List Char × List Char)}
    (nonempty : ∀ pair ∈ pairs, pair.1 ≠ [])
    (apart : ∀ pair ∈ pairs, ∀ other ∈ pairs, ¬ pair.1 <:+: other.2)
    (disjoint : ∀ pair ∈ pairs, ∀ other ∈ pairs, ¬ Overlaps pair.1 other.2) (text : List Char) :
    substitute? pairs ((substitute? pairs text).getD text) = none := by
  rw [substitute?_eq_none_iff]
  intro pair member
  have listed : pair.1 ∈ pairs.map Prod.fst := List.mem_map_of_mem member
  exact not_infix_substitute nonempty (nonempty pair member) (disjoint pair member)
    (apart pair member) text (.inl listed)

/-! Display names are internal names with dots for slashes. -/

def dotChar (c : Char) : Char := if c = '/' then '.' else c

theorem toList_dotted (text : String) : (dotted text).toList = text.toList.map dotChar := by
  simp [dotted, dotChar]

theorem dot_not_mem_slashed (text : String) : '.' ∉ (slashed text).toList := by
  simp only [slashed, String.toList_ofList, List.mem_map, not_exists, not_and]
  intro c _
  split
  · decide
  · next other => exact other

theorem map_dotChar_inj {a b : List Char} (ha : '.' ∉ a) (hb : '.' ∉ b)
    (same : a.map dotChar = b.map dotChar) : a = b := by
  induction a generalizing b with
  | nil => exact (List.map_eq_nil_iff.1 same.symm).symm
  | cons c rest ih =>
    cases b with
    | nil => simp at same
    | cons d others =>
      simp only [List.map_cons, List.cons.injEq, List.mem_cons, not_or] at same ha hb
      have head : c = d := by
        have h := same.1
        unfold dotChar at h
        split at h <;> split at h <;> simp_all
      rw [head, ih ha.2 hb.2 same.2]

theorem infix_of_map_dotChar {part text : List Char} (hp : '.' ∉ part) (ht : '.' ∉ text)
    (occurs : part.map dotChar <:+: text.map dotChar) : part <:+: text := by
  obtain ⟨before, after, split⟩ := occurs
  obtain ⟨front, back, rfl, hfront, _⟩ := List.map_eq_append_iff.1 split.symm
  obtain ⟨first, inner, rfl, _, same⟩ := List.map_eq_append_iff.1 hfront
  have clean : '.' ∉ inner := fun h => ht (by simp [h])
  rw [← map_dotChar_inj clean hp same]
  exact ⟨first, back, rfl⟩

theorem overlaps_of_map_dotChar {source target : List Char} (hs : '.' ∉ source) (ht : '.' ∉ target)
    (overlaps : Overlaps (source.map dotChar) (target.map dotChar)) : Overlaps source target := by
  have clean {part text : List Char} (h : part <:+: text) (free : '.' ∉ text) : '.' ∉ part :=
    fun dot => free (h.subset dot)
  rcases overlaps with ⟨part, nonempty, back, front⟩ | ⟨part, nonempty, front, back⟩ | whole
  · obtain ⟨inner, suffix, rfl⟩ := List.suffix_map_iff.1 back
    obtain ⟨other, start, same⟩ := List.prefix_map_iff.1 front
    have equal := map_dotChar_inj (clean suffix.isInfix ht) (clean start.isInfix hs) same
    exact .inl ⟨inner, by simpa using nonempty, suffix, equal ▸ start⟩
  · obtain ⟨inner, start, rfl⟩ := List.prefix_map_iff.1 front
    obtain ⟨other, suffix, same⟩ := List.suffix_map_iff.1 back
    have equal := map_dotChar_inj (clean start.isInfix ht) (clean suffix.isInfix hs) same
    exact .inr (.inl ⟨inner, by simpa using nonempty, start, equal ▸ suffix⟩)
  · exact .inr (.inr (infix_of_map_dotChar ht hs whole))

/-! Tables that pass the check. -/

/-- What a check of settings makes sure of. -/
structure Renaming.Checked (table : Renaming) : Prop where
  nonempty : ∀ pair ∈ table.pairs, pair.source.toList ≠ []
  apart : ∀ pair ∈ table.pairs, ∀ other ∈ table.pairs,
    ¬ pair.source.toList <:+: other.target.toList
  noDots : ∀ pair ∈ table.pairs, '.' ∉ pair.source.toList ∧ '.' ∉ pair.target.toList

namespace Settings

theorem names_ne_of_checkSources {earlier : List String} {pairs : List NamePair}
    (passed : checkSources earlier pairs = .ok ()) :
    ∀ pair ∈ pairs, pair.source ≠ "" ∧ pair.target ≠ "" := by
  induction pairs generalizing earlier with
  | nil => simp
  | cons pair rest ih =>
    unfold checkSources at passed
    split at passed
    · simp at passed
    · next source =>
      split at passed
      · simp at passed
      · next target =>
        split at passed
        · simp at passed
        · exact List.forall_mem_cons.2 ⟨⟨source, target⟩, ih passed⟩

theorem apart_of_checkTargets {sources : List String} {pairs : List NamePair}
    (passed : checkTargets sources pairs = .ok ()) :
    ∀ pair ∈ pairs, ∀ source ∈ sources, ¬ source.toList <:+: pair.target.toList := by
  induction pairs with
  | nil => simp
  | cons pair rest ih =>
    unfold checkTargets at passed
    split at passed
    · simp at passed
    · next absent =>
      refine List.forall_mem_cons.2 ⟨?_, ih passed⟩
      intro source member occurs
      exact List.find?_eq_none.1 absent source member (occursIn_iff.2 occurs)

theorem validate_eq_ok {settings : Settings} (valid : settings.validate = .ok ()) :
    checkSources [] settings.normalizedPairs = .ok () ∧
      checkTargets (settings.normalizedPairs.map NamePair.source) settings.normalizedPairs =
        .ok () := by
  unfold validate checkPairs at valid
  cases first : checkSources [] settings.normalizedPairs with
  | error cause =>
    rw [first] at valid
    cases valid
  | ok done =>
    rw [first] at valid
    exact ⟨rfl, valid⟩

theorem target_ne_nil {settings : Settings} (valid : settings.validate = .ok ()) :
    ∀ pair ∈ settings.table.pairs, pair.target.toList ≠ [] := by
  intro pair member empty
  have names := names_ne_of_checkSources (validate_eq_ok valid).1 pair (List.mem_filter.1 member).1
  exact names.2 (String.toList_eq_nil_iff.1 empty)

theorem checked_table {settings : Settings} (valid : settings.validate = .ok ()) :
    settings.table.Checked := by
  have parts := validate_eq_ok valid
  have kept {pair : NamePair} (member : pair ∈ settings.table.pairs) :
      pair ∈ settings.normalizedPairs := (List.mem_filter.1 member).1
  refine ⟨?_, ?_, ?_⟩
  · intro pair member empty
    have names := names_ne_of_checkSources parts.1 pair (kept member)
    exact names.1 (String.toList_eq_nil_iff.1 empty)
  · intro pair member other listed
    have source := List.mem_map_of_mem (f := NamePair.source) (kept member)
    exact apart_of_checkTargets parts.2 other (kept listed) pair.source source
  · intro pair member
    obtain ⟨given, _, rfl⟩ := List.mem_map.1 (kept member)
    exact ⟨dot_not_mem_slashed _, dot_not_mem_slashed _⟩

end Settings

namespace Renaming

def sewn (table : Renaming) (text : String) : Seamed :=
  .substitute (table.pairs.map NamePair.chars) (.ofPlain text.toList)

def sewnDotted (table : Renaming) (text : String) : Seamed :=
  .substitute (table.pairs.map NamePair.dottedChars) (.ofPlain text.toList)

variable {table : Renaming}

theorem toList_binary (table : Renaming) (text : String) :
    (table.binary text).toList =
      (substitute? (table.pairs.map NamePair.chars) text.toList).getD text.toList := by
  unfold binary binary?
  cases substitute? (table.pairs.map NamePair.chars) text.toList <;> simp

theorem toList_dotted (table : Renaming) (text : String) :
    (table.dotted text).toList =
      (substitute? (table.pairs.map NamePair.dottedChars) text.toList).getD text.toList := by
  unfold dotted dotted?
  cases substitute? (table.pairs.map NamePair.dottedChars) text.toList <;> simp

theorem Checked.nonempty_chars (checked : table.Checked) :
    ∀ pair ∈ table.pairs.map NamePair.chars, pair.1 ≠ [] :=
  List.forall_mem_map.2 checked.nonempty

theorem Checked.apart_chars (checked : table.Checked) :
    ∀ pair ∈ table.pairs.map NamePair.chars, ∀ other ∈ table.pairs.map NamePair.chars,
      ¬ pair.1 <:+: other.2 := by
  refine List.forall_mem_map.2 fun pair member => List.forall_mem_map.2 fun other listed => ?_
  exact checked.apart pair member other listed

theorem Checked.nonempty_dottedChars (checked : table.Checked) :
    ∀ pair ∈ table.pairs.map NamePair.dottedChars, pair.1 ≠ [] := by
  refine List.forall_mem_map.2 fun pair member => ?_
  change (ClassRenaming.dotted pair.source).toList ≠ []
  rw [ClassRenaming.toList_dotted, ne_eq, List.map_eq_nil_iff]
  exact checked.nonempty pair member

theorem Checked.apart_dottedChars (checked : table.Checked) :
    ∀ pair ∈ table.pairs.map NamePair.dottedChars,
      ∀ other ∈ table.pairs.map NamePair.dottedChars, ¬ pair.1 <:+: other.2 := by
  refine List.forall_mem_map.2 fun pair member => List.forall_mem_map.2 fun other listed => ?_
  intro occurs
  simp only [NamePair.dottedChars, ClassRenaming.toList_dotted] at occurs
  have source := (checked.noDots pair member).1
  have target := (checked.noDots other listed).2
  exact checked.apart pair member other listed (infix_of_map_dotChar source target occurs)

def Disjoint (table : Renaming) : Prop :=
  ∀ pair ∈ table.pairs, ∀ other ∈ table.pairs,
    ¬ Overlaps pair.source.toList other.target.toList

instance (table : Renaming) : Decidable table.Disjoint :=
  inferInstanceAs (Decidable (∀ pair ∈ table.pairs, ∀ other ∈ table.pairs, ¬ _))

theorem Checked.binary?_again_iff (checked : table.Checked) (text : String) :
    (table.binary? (table.binary text)).isSome ↔
      ∃ pair ∈ table.pairs, Crosses pair.source.toList (table.sewn text) := by
  have again := substitute?_again_iff checked.nonempty_chars checked.apart_chars text.toList
  simp only [List.mem_map, exists_exists_and_eq_and] at again
  rw [binary?, Option.isSome_map, toList_binary]
  exact again

theorem Checked.dotted?_again_iff (checked : table.Checked) (text : String) :
    (table.dotted? (table.dotted text)).isSome ↔
      ∃ pair ∈ table.pairs,
        Crosses (ClassRenaming.dotted pair.source).toList (table.sewnDotted text) := by
  have again := substitute?_again_iff checked.nonempty_dottedChars checked.apart_dottedChars
    text.toList
  simp only [List.mem_map, exists_exists_and_eq_and] at again
  rw [dotted?, Option.isSome_map, toList_dotted]
  exact again

theorem Checked.binary?_again_eq_none (checked : table.Checked) (disjoint : table.Disjoint)
    (text : String) : table.binary? (table.binary text) = none := by
  have apart : ∀ pair ∈ table.pairs.map NamePair.chars,
      ∀ other ∈ table.pairs.map NamePair.chars, ¬ Overlaps pair.1 other.2 :=
    List.forall_mem_map.2 fun pair member => List.forall_mem_map.2 fun other listed =>
      disjoint pair member other listed
  rw [binary?, toList_binary,
    substitute?_again_eq_none checked.nonempty_chars checked.apart_chars apart]
  rfl

theorem Checked.dotted?_again_eq_none (checked : table.Checked) (disjoint : table.Disjoint)
    (text : String) : table.dotted? (table.dotted text) = none := by
  have apart : ∀ pair ∈ table.pairs.map NamePair.dottedChars,
      ∀ other ∈ table.pairs.map NamePair.dottedChars, ¬ Overlaps pair.1 other.2 := by
    refine List.forall_mem_map.2 fun pair member => List.forall_mem_map.2 fun other listed => ?_
    intro overlaps
    simp only [NamePair.dottedChars, ClassRenaming.toList_dotted] at overlaps
    have source := (checked.noDots pair member).1
    have target := (checked.noDots other listed).2
    exact disjoint pair member other listed (overlaps_of_map_dotChar source target overlaps)
  rw [dotted?, toList_dotted,
    substitute?_again_eq_none checked.nonempty_dottedChars checked.apart_dottedChars apart]
  rfl

end Renaming

namespace Settings

/-- Renaming a text twice with a table that passes the check: the second time changes it just where
a source crosses a seam between what the first time put in and what it kept, and never when no
source overlaps a target. -/
theorem renames_again_iff_crosses {settings : Settings} (valid : settings.validate = .ok ()) :
    let table := settings.table
    (∀ text, (table.sewn text).plain = (table.binary text).toList ∧
      ((table.binary? (table.binary text)).isSome ↔
        ∃ pair ∈ table.pairs, Crosses pair.source.toList (table.sewn text))) ∧
    (∀ text, (table.sewnDotted text).plain = (table.dotted text).toList ∧
      ((table.dotted? (table.dotted text)).isSome ↔
        ∃ pair ∈ table.pairs, Crosses (dotted pair.source).toList (table.sewnDotted text))) ∧
    (table.Disjoint → ∀ text, table.binary? (table.binary text) = none ∧
      table.dotted? (table.dotted text) = none) := by
  intro table
  have checked := checked_table valid
  refine ⟨fun text => ⟨?_, checked.binary?_again_iff text⟩,
    fun text => ⟨?_, checked.dotted?_again_iff text⟩, fun disjoint text => ?_⟩
  · rw [Renaming.toList_binary, Renaming.sewn, Seamed.plain_substitute checked.nonempty_chars,
      Seamed.plain_ofPlain]
  · rw [Renaming.toList_dotted, Renaming.sewnDotted,
      Seamed.plain_substitute checked.nonempty_dottedChars, Seamed.plain_ofPlain]
  · exact ⟨checked.binary?_again_eq_none disjoint text,
      checked.dotted?_again_eq_none disjoint text⟩

/-- The usual table renames nothing twice. -/
theorem default_renames_once :
    default.validate = .ok () ∧ default.table.Disjoint ∧
      ∀ text, default.table.binary? (default.table.binary text) = none := by
  have valid : default.validate = .ok () := rfl
  have disjoint : default.table.Disjoint := by decide
  exact ⟨valid, disjoint, fun text => ((renames_again_iff_crosses valid).2.2 disjoint text).1⟩

def unshading : Settings := { default with pairs := [⟨"app/shaded", "app"⟩] }

/-- A table may pass the check and rename its own result: the target and what is kept behind it are
the source again. -/
theorem unshading_renames_again :
    unshading.validate = .ok () ∧
      unshading.table.binary "app/shaded/shaded/Main" = "app/shaded/Main" ∧
      unshading.table.binary? "app/shaded/Main" = some "app/Main" := by
  decide

end Settings

end ClassRenaming
