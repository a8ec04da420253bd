import ClassRenaming.Proofs.Idempotence
import ClassRenaming.Proofs.SignatureText

/-!
Texts of words and marks, as descriptors and signatures are. A way of spelling that leaves the marks
alone and respects the ends of the words spells a text word by word. Replacing the sources of a table
is such a way, whatever the number of pairs, if no source starts with a mark or holds an end.
-/

namespace ClassRenaming

/-- A way of spelling texts that leaves a mark in front alone, and an end of a word wherever it
stands; `word` spells names in this way. -/
structure SpellsWords (marks ends : List Char) (spell : List Char → List Char)
    (word : String → String) : Prop where
  toList : ∀ name, (word name).toList = spell name.toList
  nil : spell [] = []
  mark : ∀ c ∈ marks, ∀ rest, spell (c :: rest) = c :: spell rest
  stop : ∀ c ∈ ends, ∀ front rest, spell (front ++ c :: rest) = spell front ++ c :: spell rest

namespace SpellsWords

variable {marks ends : List Char} {spell : List Char → List Char} {word : String → String}

theorem ofList (spells : SpellsWords marks ends spell word) {chars others : List Char}
    (each : ∀ rest, spell (chars ++ rest) = others ++ spell rest) :
    word (String.ofList chars) = String.ofList others := by
  have whole := each []
  rw [List.append_nil, spells.nil, List.append_nil] at whole
  rw [← String.toList_inj, spells.toList, String.toList_ofList, String.toList_ofList, whole]

theorem flatMap {α : Type} {chars : α → List Char} {g : α → α}
    (each : ∀ item rest, spell (chars item ++ rest) = chars (g item) ++ spell rest)
    (items : List α) (rest : List Char) :
    spell (items.flatMap chars ++ rest) = (items.map g).flatMap chars ++ spell rest := by
  induction items with
  | nil => rfl
  | cons first others ih =>
    rw [List.flatMap_cons, List.append_assoc, each, ih, List.map_cons, List.flatMap_cons,
      List.append_assoc]

end SpellsWords

/-! Replacing a source within words. -/

section Replacing

variable {source target : List Char}

theorem replaceFrom_of_absent {text : List Char} (absent : ¬ source <:+: text) :
    replaceFrom source target 0 text = text := by
  induction text with
  | nil => rfl
  | cons c rest ih =>
    have front : ¬ source <+: c :: rest := fun h => absent h.isInfix
    have behind : ¬ source <:+: rest := fun h => absent (h.trans (List.suffix_cons c rest).isInfix)
    rw [replaceFrom_cons front, ih behind]

theorem prefix_of_prefix_append_cons {c : Char} (outside : c ∉ source) (front : List Char)
    {rest : List Char} (starts : source <+: front ++ c :: rest) : source <+: front := by
  rcases List.prefix_or_prefix_of_prefix starts (List.prefix_append front (c :: rest)) with
    inside | ⟨behind, rfl⟩
  · exact inside
  · cases behind with
    | nil => simp
    | cons d behind =>
      obtain ⟨rfl, -⟩ := List.cons_prefix_cons.1 ((List.prefix_append_right_inj front).1 starts)
      simp at outside

theorem replaceFrom_append_cons (nonempty : source ≠ []) {c : Char} (outside : c ∉ source)
    (front rest : List Char) :
    replaceFrom source target 0 (front ++ c :: rest) =
      replaceFrom source target 0 front ++ c :: replaceFrom source target 0 rest := by
  induction front using replaceFrom_induction nonempty with
  | nil =>
    apply replaceFrom_cons
    intro starts
    exact nonempty (List.prefix_nil.1 (prefix_of_prefix_append_cons outside [] starts))
  | found front ih =>
    rw [List.append_assoc, replaceFrom_append nonempty, ih, replaceFrom_append nonempty, List.append_assoc]
  | kept d front absent ih =>
    have still : ¬ source <+: d :: (front ++ c :: rest) :=
      fun starts => absent (prefix_of_prefix_append_cons outside (d :: front) starts)
    rw [List.cons_append, replaceFrom_cons still, ih, replaceFrom_cons absent, List.cons_append]

end Replacing

/-! All pairs of a table. -/

def substituted (pairs : List (List Char × List Char)) (text : List Char) : List Char :=
  (substitute? pairs text).getD text

section Substituting

variable {pairs : List (List Char × List Char)}

theorem substituted_cons {source target : List Char} (nonempty : source ≠ []) (text : List Char) :
    substituted ((source, target) :: pairs) text =
      substituted pairs (replaceFrom source target 0 text) := by
  rw [substituted, substitute?]
  split
  · rw [replaceAll_of_ne_nil nonempty]
    rfl
  · next absent =>
    rw [replaceFrom_of_absent fun occurs => absent (occursIn_iff.2 occurs)]
    rfl

variable (nonempty : ∀ pair ∈ pairs, pair.1 ≠ [])

include nonempty

theorem substituted_nil : substituted pairs [] = [] := by
  induction pairs with
  | nil => rfl
  | cons pair pairs ih =>
    rw [List.forall_mem_cons] at nonempty
    rw [substituted_cons nonempty.1]
    exact ih nonempty.2

theorem substituted_mark {c : Char} (other : ∀ pair ∈ pairs, c ∉ pair.1.head?) (rest : List Char) :
    substituted pairs (c :: rest) = c :: substituted pairs rest := by
  induction pairs generalizing rest with
  | nil => rfl
  | cons pair pairs ih =>
    rw [List.forall_mem_cons] at nonempty other
    have absent : ¬ pair.1 <+: c :: rest := by
      intro starts
      rcases List.prefix_cons_iff.1 starts with empty | ⟨tail, source, -⟩
      · exact nonempty.1 empty
      · exact other.1 (by simp [source])
    rw [substituted_cons nonempty.1, replaceFrom_cons absent, ih nonempty.2 other.2,
      substituted_cons nonempty.1]

theorem substituted_stop {c : Char} (outside : ∀ pair ∈ pairs, c ∉ pair.1) (front rest : List Char) :
    substituted pairs (front ++ c :: rest) = substituted pairs front ++ c :: substituted pairs rest := by
  induction pairs generalizing front rest with
  | nil => rfl
  | cons pair pairs ih =>
    rw [List.forall_mem_cons] at nonempty outside
    simp only [substituted_cons nonempty.1, replaceFrom_append_cons nonempty.1 outside.1,
      ih nonempty.2 outside.2]

end Substituting

theorem substitute?_keeps (good : List Char → Prop) {pairs : List (List Char × List Char)}
    (keeps : ∀ pair ∈ pairs, ∀ text, good text → good (replaceAll pair.1 pair.2 text))
    {text : List Char} (here : good text) : good ((substitute? pairs text).getD text) := by
  induction pairs generalizing text with
  | nil => exact here
  | cons pair pairs ih =>
    obtain ⟨source, target⟩ := pair
    rw [List.forall_mem_cons] at keeps
    rw [substitute?]
    split
    · exact ih keeps.2 (keeps.1 text here)
    · exact ih keeps.2 here

theorem mem_replaceFrom {source target text : List Char} {skip : Nat} {c : Char}
    (member : c ∈ replaceFrom source target skip text) : c ∈ target ∨ c ∈ text := by
  induction text generalizing skip with
  | nil => cases member
  | cons d rest ih =>
    cases skip with
    | succ skip => exact (ih member).imp_right (List.mem_cons_of_mem d)
    | zero =>
      rw [replaceFrom] at member
      split at member
      · rcases List.mem_append.1 member with here | later
        · exact .inl here
        · exact (ih later).imp_right (List.mem_cons_of_mem d)
      · rcases List.mem_cons.1 member with rfl | later
        · exact .inr List.mem_cons_self
        · exact (ih later).imp_right (List.mem_cons_of_mem d)

theorem replaceFrom_ne_nil {source target text : List Char} (filled : target ≠ [])
    (nonempty : text ≠ []) : replaceFrom source target 0 text ≠ [] := by
  cases text with
  | nil => exact absurd rfl nonempty
  | cons c rest =>
    rw [replaceFrom]
    split
    · exact fun empty => filled (List.append_eq_nil_iff.1 empty).1
    · exact List.cons_ne_nil _ _

namespace Renaming

variable {table : Renaming} {marks ends : List Char}

theorem isIdentifier_binary {stop : Char → Bool} {name : String}
    (sourced : ∀ pair ∈ table.pairs, pair.source.toList ≠ [])
    (targets : ∀ pair ∈ table.pairs, IsIdentifier stop pair.target)
    (proper : IsIdentifier stop name) : IsIdentifier stop (table.binary name) := by
  have kept : (table.binary name).toList ≠ [] ∧
      ∀ c ∈ (table.binary name).toList, stop c = false := by
    rw [toList_binary]
    apply substitute?_keeps fun text => text ≠ [] ∧ ∀ c ∈ text, stop c = false
    · intro chars listed text here
      obtain ⟨pair, member, rfl⟩ := List.mem_map.1 listed
      have target := targets pair member
      have nonempty : pair.target.toList ≠ [] :=
        fun empty => target.nonempty (String.toList_eq_nil_iff.1 empty)
      have source : pair.chars.1.isEmpty = false := by simpa [NamePair.chars] using sourced pair member
      rw [replaceAll, source]
      refine ⟨replaceFrom_ne_nil nonempty here.1, fun c inside => ?_⟩
      rcases mem_replaceFrom inside with new | old
      · exact target.free c new
      · exact here.2 c old
    · exact ⟨fun empty => proper.nonempty (String.toList_eq_nil_iff.1 empty), proper.free⟩
  exact ⟨fun empty => kept.1 (String.toList_eq_nil_iff.2 empty), kept.2⟩

/-- Whether a table fits texts with these marks and ends of words: no source is empty or starts with a
mark, no target is empty, and no source or target holds an end. -/
structure FitsMarks (table : Renaming) (marks ends : List Char) : Prop where
  start : ∀ pair ∈ table.pairs, ∃ c ∈ pair.source.toList.head?, c ∉ marks
  source : ∀ pair ∈ table.pairs, ∀ c ∈ ends, c ∉ pair.source.toList
  nonempty : ∀ pair ∈ table.pairs, pair.target ≠ ""
  target : ∀ pair ∈ table.pairs, ∀ c ∈ ends, c ∉ pair.target.toList

namespace FitsMarks

theorem of_isLower (capital : marks.all (!·.isLower))
    (lower : ∀ pair ∈ table.pairs, pair.source.toList.head?.any Char.isLower)
    (free : ∀ pair ∈ table.pairs,
      ends.all fun c => !pair.source.toList.contains c && !pair.target.toList.contains c)
    (nonempty : ∀ pair ∈ table.pairs, pair.target ≠ "") : table.FitsMarks marks ends := by
  simp only [List.all_eq_true, Option.any_eq_true, Bool.and_eq_true, Bool.not_eq_true',
    List.contains_eq_mem, decide_eq_false_iff_not] at capital lower free
  constructor
  case start =>
    intro pair member
    obtain ⟨c, first, small⟩ := lower pair member
    refine ⟨c, first, ?_⟩
    intro listed
    rw [capital c listed] at small
    cases small
  case source =>
    intro pair member c listed
    exact (free pair member c listed).1
  case nonempty => exact nonempty
  case target =>
    intro pair member c listed
    exact (free pair member c listed).2

variable (fits : table.FitsMarks marks ends)

include fits

theorem source_ne_nil : ∀ pair ∈ table.pairs, pair.source.toList ≠ [] := by
  intro pair member empty
  obtain ⟨c, start, -⟩ := fits.start pair member
  simp [empty] at start

theorem isIdentifier {stop : Char → Bool} (inside : ∀ c, stop c = true → c ∈ ends) {name : String}
    (proper : IsIdentifier stop name) : IsIdentifier stop (table.binary name) := by
  apply isIdentifier_binary fits.source_ne_nil _ proper
  intro pair member
  refine ⟨fits.nonempty pair member, ?_⟩
  intro c listed
  by_contra stops
  rw [Bool.not_eq_false] at stops
  exact fits.target pair member c (inside c stops) listed

theorem spellsWords :
    SpellsWords marks ends (substituted (table.pairs.map NamePair.chars)) table.binary := by
  have sourced : ∀ pair ∈ table.pairs.map NamePair.chars, pair.1 ≠ [] :=
    List.forall_mem_map.2 fits.source_ne_nil
  constructor
  case toList =>
    intro name
    exact toList_binary table name
  case nil => exact substituted_nil sourced
  case mark =>
    intro c listed
    apply substituted_mark sourced
    intro pair member first
    obtain ⟨old, here, rfl⟩ := List.mem_map.1 member
    obtain ⟨d, start, other⟩ := fits.start old here
    obtain rfl : d = c := Option.mem_unique start first
    exact other listed
  case stop =>
    intro c listed
    apply substituted_stop sourced
    exact List.forall_mem_map.2 fun pair member => fits.source pair member c listed

end FitsMarks

end Renaming

end ClassRenaming
