import ClassRenaming.Hierarchy.Resolver
import ClassRenaming.Proofs.RenamedSites
import ClassRenaming.Proofs.SpelledWords

/-!
Names under which the bytes of a class may be stored. One pair is undone in the whole name, while a
renaming applies all pairs in order and reads from the left. The two agree as long as nothing but the
sources that were put in is found: no source of an earlier pair, and no source that begins in what was
kept and runs into one that was put in. Tables in which sources overlap pass the check, and may take
such a name to another class.
-/

namespace ClassRenaming

/-- When the target in a text is undone, an occurrence of the source begins at a character that is
kept. -/
inductive Strays (source target : List Char) : List Char → Prop
  | here {c : Char} {rest : List Char} (kept : ¬ target <+: c :: rest)
      (begins : source <+: c :: replaceFrom target source 0 rest) : Strays source target (c :: rest)
  | found {rest : List Char} (later : Strays source target rest) :
      Strays source target (target ++ rest)
  | kept {c : Char} {rest : List Char} (kept : ¬ target <+: c :: rest)
      (later : Strays source target rest) : Strays source target (c :: rest)

section Pair

variable {source target : List Char}

theorem strays_append {rest : List Char} :
    Strays source target (target ++ rest) ↔ Strays source target rest := by
  constructor
  · intro strays
    generalize whole : target ++ rest = text at strays
    cases strays with
    | here kept _ => exact absurd ⟨rest, whole⟩ kept
    | found later => rwa [List.append_cancel_left whole]
    | kept kept _ => exact absurd ⟨rest, whole⟩ kept
  · exact .found

theorem strays_cons {c : Char} {rest : List Char} (kept : ¬ target <+: c :: rest) :
    Strays source target (c :: rest) ↔
      source <+: c :: replaceFrom target source 0 rest ∨ Strays source target rest := by
  constructor
  · intro strays
    generalize whole : c :: rest = text at strays
    cases strays with
    | here _ begins =>
      cases whole
      exact .inl begins
    | found later => exact absurd ⟨_, whole.symm⟩ kept
    | kept _ later =>
      cases whole
      exact .inr later
  · rintro (begins | later)
    · exact .here kept begins
    · exact .kept kept later

/-- A pair that is undone comes back just where no source strays: one that begins in what is kept
would leave a target where the text has none. -/
theorem replaceFrom_undone_iff (sourced : source ≠ []) (nonempty : target ≠ []) (text : List Char) :
    replaceFrom source target 0 (replaceFrom target source 0 text) = text ↔
      ¬ Strays source target text := by
  induction text using replaceFrom_induction nonempty with
  | nil =>
    refine iff_of_true rfl fun strays => ?_
    generalize none : ([] : List Char) = text at strays
    cases strays with
    | found later => exact nonempty (List.append_eq_nil_iff.1 none.symm).1
    | here | kept => cases none
  | found rest ih =>
    rw [replaceFrom_append nonempty, replaceFrom_append sourced, strays_append, ← ih]
    exact List.append_right_inj target
  | kept c rest kept ih =>
    rw [replaceFrom_cons kept, strays_cons kept]
    by_cases begins : source <+: c :: replaceFrom target source 0 rest
    · refine iff_of_false (fun back => ?_) (not_not.2 (.inl begins))
      obtain ⟨behind, split⟩ := begins
      rw [← split, replaceFrom_append sourced] at back
      exact kept ⟨_, back⟩
    · rw [replaceFrom_cons begins, List.cons_inj_right, ih]
      simp [begins]

def Bordered (text : List Char) : Prop :=
  ∃ part, part ≠ [] ∧ part ≠ text ∧ part <+: text ∧ part <:+ text

theorem bordered_iff_tails {text : List Char} :
    Bordered text ↔ ∃ part ∈ text.tails, part ≠ [] ∧ part ≠ text ∧ part <+: text := by
  simp only [Bordered, List.mem_tails]
  constructor
  · rintro ⟨part, nonempty, other, front, back⟩
    exact ⟨part, back, nonempty, other, front⟩
  · rintro ⟨part, back, nonempty, other, front⟩
    exact ⟨part, nonempty, other, front, back⟩

instance (text : List Char) : Decidable (Bordered text) :=
  decidable_of_iff _ bordered_iff_tails.symm

/-- A source that strays is in the text already, or runs into another one, with an end that begins
it. -/
theorem Strays.bordered {text : List Char} (strays : Strays source target text)
    (absent : ¬ source <:+: text) : Bordered source := by
  induction strays with
  | @here c rest kept begins =>
    rcases List.prefix_cons_iff.1 begins with rfl | ⟨tail, rfl, behind⟩
    · exact absurd (List.nil_infix) absent
    · by_cases last : tail = []
      · subst last
        exact absurd ⟨[], rest, rfl⟩ absent
      · rcases prefix_replaceFrom last behind with ⟨old, -⟩ | ⟨part, nonempty, front, back⟩ | whole
        · have front : c :: tail <+: c :: rest := List.cons_prefix_cons.2 ⟨rfl, old⟩
          exact absurd front.isInfix absent
        · have shorter := back.length_le
          refine ⟨part, nonempty, ?_, front, back.trans (List.suffix_cons c tail)⟩
          rintro rfl
          rw [List.length_cons] at shorter
          omega
        · have longer := whole.length_le
          rw [List.length_cons] at longer
          omega
  | found later ih => exact ih fun occurs => absent (occurs.trans (List.suffix_append _ _).isInfix)
  | kept _ later ih => exact ih fun occurs => absent (occurs.trans (List.suffix_cons _ _).isInfix)

end Pair

section Substituting

variable {pairs front : List (List Char × List Char)} {text : List Char}

theorem substituted_of_absent (absent : ∀ pair ∈ pairs, ¬ pair.1 <:+: text) :
    substituted pairs text = text := by
  rw [substituted, substitute?_eq_none_iff.2 absent, Option.getD_none]

theorem substituted_append_of_absent (sourced : ∀ pair ∈ front, pair.1 ≠ [])
    (absent : ∀ pair ∈ front, ¬ pair.1 <:+: text) :
    substituted (front ++ pairs) text = substituted pairs text := by
  induction front with
  | nil => rfl
  | cons pair front ih =>
    rw [List.forall_mem_cons] at sourced absent
    rw [List.cons_append, substituted_cons sourced.1, replaceFrom_of_absent absent.1]
    exact ih sourced.2 absent.2

end Substituting

namespace NamePair

def undo (pair : NamePair) (name : String) : String :=
  String.ofList (replaceAll pair.target.toList pair.source.toList name.toList)

def Strays (pair : NamePair) (name : String) : Prop :=
  ClassRenaming.Strays pair.source.toList pair.target.toList name.toList

end NamePair

namespace Renaming

variable {table : Renaming}

theorem mem_undone {name original : String} : original ∈ table.undone name ↔
    ∃ pair ∈ table.pairs, pair.target.toList <:+: name.toList ∧ pair.undo name = original := by
  simp only [undone, List.mem_eraseDups, List.mem_filterMap, Option.ite_none_right_eq_some,
    Option.some.injEq, occursIn_iff]
  rfl

/-- No source overlaps or lies in one further down, or overlaps itself. -/
structure SourcesApart (table : Renaming) : Prop where
  order : table.pairs.Pairwise fun earlier later =>
    ¬ Overlaps earlier.source.toList later.source.toList ∧
      ¬ earlier.source.toList <:+: later.source.toList
  own : ∀ pair ∈ table.pairs, ¬ Bordered pair.source.toList

instance (table : Renaming) : Decidable table.SourcesApart :=
  decidable_of_iff (table.pairs.Pairwise (fun earlier later =>
      ¬ Overlaps earlier.source.toList later.source.toList ∧
        ¬ earlier.source.toList <:+: later.source.toList) ∧
      ∀ pair ∈ table.pairs, ¬ Bordered pair.source.toList)
    ⟨fun ⟨order, own⟩ => ⟨order, own⟩, fun ⟨order, own⟩ => ⟨order, own⟩⟩

section Undoing

variable {pair : NamePair} {name : String} (sourced : pair.source.toList ≠ [])
  (nonempty : pair.target.toList ≠ [])
include nonempty

theorem toList_undo : (pair.undo name).toList =
    replaceFrom pair.target.toList pair.source.toList 0 name.toList := by
  rw [NamePair.undo, String.toList_ofList, replaceAll_of_ne_nil nonempty]

include sourced

theorem binary_undo_iff :
    (⟨[pair]⟩ : Renaming).binary (pair.undo name) = name ↔ ¬ pair.Strays name := by
  rw [NamePair.Strays, ← replaceFrom_undone_iff sourced nonempty, ← String.toList_inj, toList_binary]
  change substituted [pair.chars] _ = _ ↔ _
  rw [toList_undo nonempty, NamePair.chars, substituted_cons sourced]
  rfl

theorem binary_undo {earlier later : List NamePair} (split : table.pairs = earlier ++ pair :: later)
    (sources : ∀ other ∈ table.pairs, other.source.toList ≠ [])
    (free : table.Free name)
    (absent : ∀ other ∈ earlier, ¬ other.source.toList <:+: (pair.undo name).toList)
    (straight : ¬ pair.Strays name) : table.binary (pair.undo name) = name := by
  rw [Free, split, List.forall_mem_append, List.forall_mem_cons] at free
  rw [split, List.forall_mem_append] at sources
  rw [← String.toList_inj, toList_binary]
  change substituted (table.pairs.map NamePair.chars) _ = _
  rw [split, List.map_append, List.map_cons, substituted_append_of_absent
    (List.forall_mem_map.2 sources.1) (List.forall_mem_map.2 absent), NamePair.chars,
    substituted_cons sourced, toList_undo nonempty,
    (replaceFrom_undone_iff sourced nonempty _).2 straight]
  exact substituted_of_absent (List.forall_mem_map.2 free.2.2)

end Undoing

namespace SourcesApart

variable {earlier later : List NamePair} {pair : NamePair} {name : String} (apart : table.SourcesApart)
  (free : table.Free name)
include apart free

theorem absent (split : table.pairs = earlier ++ pair :: later)
    (sources : ∀ other ∈ table.pairs, other.source.toList ≠ []) (nonempty : pair.target.toList ≠ []) :
    ∀ other ∈ earlier, ¬ other.source.toList <:+: (pair.undo name).toList := by
  intro other before occurs
  have order := apart.order
  rw [split, List.pairwise_append] at order
  obtain ⟨overlaps, inside⟩ := order.2.2 other before pair List.mem_cons_self
  have listed : other ∈ table.pairs := by simp [split, before]
  rw [toList_undo nonempty] at occurs
  exact free other listed (infix_replaceFrom (sources other listed) overlaps inside 0 occurs).1

theorem straight (listed : pair ∈ table.pairs) : ¬ pair.Strays name := fun strays =>
  apart.own pair listed (strays.bordered (free pair listed))

end SourcesApart

end Renaming

namespace Settings

/-- A table that passes the check, and a name that holds no source of it. A pair by itself takes the
name with the pair undone back just where no source strays; in the table it does so if no source in
front of it gets in. If sources are apart then no name under which the resolver looks for bytes is that
of another class. -/
theorem binary_of_undone {settings : Settings} (valid : settings.validate = .ok ()) {name : String}
    (free : settings.table.Free name) :
    let table := settings.table
    (∀ original, original ∈ table.undone name ↔
      ∃ pair ∈ table.pairs, pair.target.toList <:+: name.toList ∧ pair.undo name = original) ∧
    (∀ pair ∈ table.pairs,
      (⟨[pair]⟩ : Renaming).binary (pair.undo name) = name ↔ ¬ pair.Strays name) ∧
    (∀ earlier pair later, table.pairs = earlier ++ pair :: later →
      (∀ other ∈ earlier, ¬ other.source.toList <:+: (pair.undo name).toList) →
        ¬ pair.Strays name → table.binary (pair.undo name) = name) ∧
    (table.SourcesApart → ∀ hierarchy : Hierarchy, hierarchy.table = some table →
      ∀ original ∈ hierarchy.candidates name, table.binary original = name) := by
  intro table
  have sources := (checked_table valid).nonempty
  have targets := target_ne_nil valid
  have single (earlier : List NamePair) (pair : NamePair) (later : List NamePair)
      (split : table.pairs = earlier ++ pair :: later)
      (absent : ∀ other ∈ earlier, ¬ other.source.toList <:+: (pair.undo name).toList)
      (straight : ¬ pair.Strays name) : table.binary (pair.undo name) = name := by
    have listed : pair ∈ table.pairs := by simp [split]
    exact Renaming.binary_undo (sources pair listed) (targets pair listed) split sources free absent
      straight
  refine ⟨fun _ => Renaming.mem_undone, fun pair listed =>
    Renaming.binary_undo_iff (sources pair listed) (targets pair listed), single, ?_⟩
  intro apart hierarchy known original tried
  rw [Hierarchy.candidates, known, List.mem_cons] at tried
  rcases tried with rfl | undone
  · exact Renaming.binary_of_free free
  · obtain ⟨pair, listed, -, rfl⟩ := Renaming.mem_undone.1 undone
    obtain ⟨earlier, later, split⟩ := List.append_of_mem listed
    exact single earlier pair later split (apart.absent free split sources (targets pair listed))
      (apart.straight free listed)

/-- A source that ends as it begins runs from the text that was kept into one that was put in. -/
example : (⟨[⟨"old/old", "new"⟩]⟩ : Renaming).undone "old/new" = ["old/old/old"] ∧
    (⟨[⟨"old/old", "new"⟩]⟩ : Renaming).binary "old/old/old" = "new/old" := by
  decide

/-- The usual table. -/
theorem default_binary_of_undone :
    default.validate = .ok () ∧ default.table.SourcesApart ∧
      default.table.undone "jakarta/servlet/GenericServlet" = ["javax/servlet/GenericServlet"] ∧
      ∀ original ∈ (⟨.empty, some default.table⟩ : Hierarchy).candidates
          "jakarta/servlet/GenericServlet",
        default.table.binary original = "jakarta/servlet/GenericServlet" := by
  have valid : default.validate = .ok () := rfl
  have apart : default.table.SourcesApart := by decide
  have free : default.table.Free "jakarta/servlet/GenericServlet" := by
    rw [Renaming.Free]
    decide
  exact ⟨valid, apart, by decide, (binary_of_undone valid free).2.2.2 apart _ rfl⟩

/-- Settings that move one package of a namespace elsewhere, and rename the rest. -/
def splitting : Settings :=
  { default with pairs := [⟨"javax/servlet", "org/servlet"⟩, ⟨"javax", "jakarta"⟩] }

/-- A table may pass the check and look for a class under the name of one that is renamed
differently. -/
theorem splitting_undone_elsewhere :
    splitting.validate = .ok () ∧
      (∀ pair ∈ splitting.table.pairs, ¬ pair.source.toList <:+: "jakarta/servlet/Filter".toList) ∧
      splitting.table.undone "jakarta/servlet/Filter" = ["javax/servlet/Filter"] ∧
      splitting.table.binary "javax/servlet/Filter" = "org/servlet/Filter" := by
  decide

end Settings

end ClassRenaming
