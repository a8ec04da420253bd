import ClassRenaming.Proofs.NamesInTypes
import ClassRenaming.Proofs.RenamedSites
import ClassRenaming.Proofs.RespelledSignatures

/-!
Tables that leave no source behind. What such a table makes of a site it leaves alone afterwards, also
when the text was stored and read in between, and so it does with every name that frames get from
names without a source.
-/

namespace ClassRenaming

open ModifiedUtf8

/-! Sources that occur in a text. -/

/-- Whether a source looks like the beginning of a name: ASCII, with a lower-case letter first. -/
def NamePair.hasPlainSource (pair : NamePair) : Bool :=
  pair.source.toList.all (·.toNat < 128) && pair.source.toList.head?.any Char.isLower &&
    !pair.source.toList.contains ';'

namespace Renaming

variable {table : Renaming} {text : String}

def FreeDotted (table : Renaming) (text : String) : Prop :=
  ∀ pair ∈ table.pairs, ¬ (ClassRenaming.dotted pair.source).toList <:+: text.toList

theorem dotted?_eq_none_iff : table.dotted? text = none ↔ table.FreeDotted text := by
  rw [dotted?, Option.map_eq_none_iff, substitute?_eq_none_iff, List.forall_mem_map]
  rfl

/-- A table of sources that look like the beginnings of names, none of which it leaves in a name or
display name, or changes in a name that frames get anyway. -/
structure Thorough (table : Renaming) : Prop where
  ascii : ∀ pair ∈ table.pairs, ∀ c ∈ pair.source.toList, c.toNat < 128
  lower : ∀ pair ∈ table.pairs, ∃ c ∈ pair.source.toList.head?, c.isLower = true
  semicolon : ∀ pair ∈ table.pairs, ';' ∉ pair.source.toList
  binary : ∀ text, table.Free (table.binary text)
  dotted : ∀ text, table.FreeDotted (table.dotted text)
  fixed : ∀ name ∈ fixedNames, table.Free name

theorem Checked.thorough (checked : table.Checked) (disjoint : table.Disjoint)
    (plain : ∀ pair ∈ table.pairs, pair.hasPlainSource = true)
    (fixed : ∀ name ∈ fixedNames, table.binary? name = none) : table.Thorough := by
  constructor
  case binary =>
    exact fun text => binary?_eq_none_iff.1 (checked.binary?_again_eq_none disjoint text)
  case dotted =>
    exact fun text => dotted?_eq_none_iff.1 (checked.dotted?_again_eq_none disjoint text)
  case fixed => exact fun name member => binary?_eq_none_iff.1 (fixed name member)
  all_goals
    intro pair member
    have here := plain pair member
    simp only [NamePair.hasPlainSource, Bool.and_eq_true, List.all_eq_true, Option.any_eq_true,
      decide_eq_true_iff] at here
  case ascii => exact here.1.1
  case lower => exact here.1.2
  case semicolon => simpa using here.2

namespace Thorough

variable (thorough : table.Thorough)

include thorough

theorem infix_of_cons {pair : NamePair} (member : pair ∈ table.pairs) {c : Char} {rest : List Char}
    (other : c.isLower = false) (occurs : pair.source.toList <:+: c :: rest) :
    pair.source.toList <:+: rest := by
  rcases List.infix_cons_iff.1 occurs with front | inside
  · obtain ⟨first, start, lower⟩ := thorough.lower pair member
    cases source : pair.source.toList with
    | nil => exact List.nil_infix
    | cons d chars =>
      rw [source] at start front
      cases start
      obtain ⟨rfl, -⟩ := List.cons_prefix_cons.1 front
      rw [other] at lower
      cases lower
  · exact inside

theorem infix_of_append {pair : NamePair} (member : pair ∈ table.pairs) {front rest : List Char}
    (other : ∀ c ∈ front, c.isLower = false) (occurs : pair.source.toList <:+: front ++ rest) :
    pair.source.toList <:+: rest := by
  induction front with
  | nil => exact occurs
  | cons c front ih =>
    rw [List.forall_mem_cons] at other
    exact ih other.2 (thorough.infix_of_cons member other.1 occurs)

theorem infix_of_semicolon {pair : NamePair} (member : pair ∈ table.pairs) {text : List Char}
    (occurs : pair.source.toList <:+: text ++ [';']) : pair.source.toList <:+: text := by
  rcases List.infix_concat_iff.1 occurs with back | inside
  · rcases List.suffix_concat_iff.1 back with empty | ⟨front, source, -⟩
    · rw [empty]
      exact List.nil_infix
    · refine absurd ?_ (thorough.semicolon pair member)
      rw [source]
      exact List.mem_append_right _ List.mem_cons_self
  · exact inside

theorem free_arrayName (dimensions : Nat) {name : String} (free : table.Free name) :
    table.Free (arrayName dimensions name) := by
  intro pair member occurs
  unfold arrayName at occurs
  split at occurs
  · exact free pair member occurs
  · have chars : (String.ofList (List.replicate dimensions '[') ++ "L" ++ name ++ ";").toList =
        (List.replicate dimensions '[' ++ ['L']) ++ name.toList ++ [';'] := by
      simp only [String.toList_append, String.toList_ofList]
      rfl
    rw [chars] at occurs
    have inside := thorough.infix_of_semicolon member occurs
    refine free pair member (thorough.infix_of_append member ?_ inside)
    intro c listed
    rcases List.mem_append.1 listed with bracket | letter
    · rw [List.eq_of_mem_replicate bracket]
      rfl
    · rw [List.mem_singleton.1 letter]
      rfl

theorem source_ne_nil {pair : NamePair} (member : pair ∈ table.pairs) : pair.source.toList ≠ [] := by
  obtain ⟨first, start, -⟩ := thorough.lower pair member
  intro empty
  rw [empty] at start
  cases start

theorem closedNames : ClosedNames table.Free := by
  constructor
  case part => exact fun inside free => free.part inside
  case bracket =>
    intro name free pair member occurs
    rw [String.toList_append] at occurs
    exact free pair member (thorough.infix_of_cons member rfl occurs)
  case array => exact fun dimensions name free => thorough.free_arrayName dimensions free
  case fixed => exact thorough.fixed
  case base =>
    intro base pair member occurs
    rw [String.toList_ofList, ← List.append_nil ['[', base.letter]] at occurs
    have upper : ∀ c ∈ ['[', base.letter], c.isLower = false := by
      rw [List.forall_mem_cons, List.forall_mem_singleton]
      cases base <;> decide
    have inside := thorough.infix_of_append member upper occurs
    exact thorough.source_ne_nil member (List.infix_nil.1 inside)

/-! A text that is stored and read. -/

section Respelled

variable {spell : List Char → List Char} (respells : Respells spell)

include respells

theorem free_respell {text : String} (free : table.Free text) :
    table.Free (respell spell text) := by
  intro pair member occurs
  have small : ∀ c ∈ pair.source.toList, c.toNat < 0x10000 := by
    intro c inside
    have bound := thorough.ascii pair member c inside
    omega
  rw [respell, String.toList_ofList] at occurs
  exact free pair member ((respells.joins text.toList).isInfix_of_isInfix small occurs)

theorem freeDotted_respell {text : String} (free : table.FreeDotted text) :
    table.FreeDotted (respell spell text) := by
  intro pair member occurs
  have small : ∀ c ∈ (ClassRenaming.dotted pair.source).toList, c.toNat < 0x10000 := by
    intro c inside
    rw [ClassRenaming.toList_dotted] at inside
    obtain ⟨old, listed, rfl⟩ := List.mem_map.1 inside
    have bound := thorough.ascii pair member old listed
    unfold dotChar
    split
    · decide
    · omega
  rw [respell, String.toList_ofList] at occurs
  exact free pair member ((respells.joins text.toList).isInfix_of_isInfix small occurs)

theorem binary_respell (text : String) :
    table.binary (respell spell (table.binary text)) = respell spell (table.binary text) :=
  binary_of_free (thorough.free_respell respells (thorough.binary text))

theorem site?_respell (shape : TypeSignature.KeepsShape table.binary) (site : Site) :
    table.site? ((site.mapTexts (.ofTable table)).mapTexts (.all (respell spell))) = none := by
  cases site with
  | binary text =>
    exact binary?_eq_none_iff.2 (thorough.free_respell respells (thorough.binary text))
  | dotted text =>
    exact dotted?_eq_none_iff.2 (thorough.freeDotted_respell respells (thorough.dotted text))
  | signature kind text =>
    change table.site? (.signature kind (respell spell (table.signature kind text))) = none
    rw [signature_eq]
    cases done : Signature.mapped? table.binary text kind with
    | none =>
      have unchanged := binary?_eq_none_iff.2 (thorough.free_respell respells (thorough.binary text))
      simp only [Option.getD_none, site?, unchanged]
    | some printed =>
      have again := Signature.mapped?_again respells (thorough.binary_respell respells) shape done
      simp only [Option.getD_some, site?, again, if_true]
      split <;> rfl

end Respelled

end Thorough

/-! Tables whose targets are names. -/

theorem keepsShape_binary (sourced : ∀ pair ∈ table.pairs, pair.source.toList ≠ [])
    (targets : ∀ pair ∈ table.pairs, IsIdentifier endsSegment pair.target) :
    TypeSignature.KeepsShape table.binary :=
  fun _ => isIdentifier_binary sourced targets

end Renaming

end ClassRenaming
