/-!
Renaming tables. A table is a list of pairs of namespaces in internal form, parts separated by
slashes. Each pair in turn replaces its source wherever it occurs in what the pairs before it left,
so one table serves names, descriptors and signatures. Display names have dots for slashes.
-/

namespace ClassRenaming

def occursIn (part : List Char) : List Char → Bool
  | [] => part.isEmpty
  | c :: rest => part.isPrefixOf (c :: rest) || occursIn part rest

/-- Replaces occurrences of a non-empty `source`, found from the left and not overlapping; `skip`
characters still belong to the last one found. -/
def replaceFrom (source target : List Char) : Nat → List Char → List Char
  | _, [] => []
  | skip + 1, _ :: rest => replaceFrom source target skip rest
  | 0, c :: rest =>
    if source.isPrefixOf (c :: rest) then
      target ++ replaceFrom source target (source.length - 1) rest
    else c :: replaceFrom source target 0 rest

/-- Replaces every occurrence of `source`; the empty text occurs around every character. -/
def replaceAll (source target text : List Char) : List Char :=
  if source.isEmpty then target ++ text.flatMap (· :: target)
  else replaceFrom source target 0 text

/-- Applies the pairs in order; `none` when no source occurred where its pair was tried. -/
def substitute? : List (List Char × List Char) → List Char → Option (List Char)
  | [], _ => none
  | (source, target) :: pairs, text =>
    if occursIn source text then
      let next := replaceAll source target text
      some ((substitute? pairs next).getD next)
    else substitute? pairs text

def slashed (text : String) : String :=
  String.ofList (text.toList.map fun c => if c = '.' then '/' else c)

def dotted (text : String) : String :=
  String.ofList (text.toList.map fun c => if c = '/' then '.' else c)

structure NamePair where
  source : String
  target : String
  deriving DecidableEq, Repr, Inhabited

namespace NamePair

def ofTexts (source target : String) : NamePair := ⟨slashed source, slashed target⟩

def chars (pair : NamePair) : List Char × List Char := (pair.source.toList, pair.target.toList)

def dottedChars (pair : NamePair) : List Char × List Char :=
  ((dotted pair.source).toList, (dotted pair.target).toList)

/-- An empty source and a pair of equal names rename nothing. -/
def Effective (pair : NamePair) : Prop := pair.source ≠ "" ∧ pair.source ≠ pair.target

instance (pair : NamePair) : Decidable pair.Effective :=
  inferInstanceAs (Decidable (_ ∧ _))

end NamePair

structure Renaming where
  pairs : List NamePair
  deriving DecidableEq, Repr, Inhabited

namespace Renaming

def ofPairs (pairs : List NamePair) : Renaming := ⟨pairs.filter (·.Effective)⟩

def isEmpty (table : Renaming) : Bool := table.pairs.isEmpty

def binary? (table : Renaming) (text : String) : Option String :=
  (substitute? (table.pairs.map NamePair.chars) text.toList).map String.ofList

def dotted? (table : Renaming) (text : String) : Option String :=
  (substitute? (table.pairs.map NamePair.dottedChars) text.toList).map String.ofList

def binary (table : Renaming) (text : String) : String :=
  (table.binary? text).getD text

def dotted (table : Renaming) (text : String) : String :=
  (table.dotted? text).getD text

def inSource (table : Renaming) (name : String) : Bool :=
  table.pairs.any fun pair => pair.source.toList.isPrefixOf name.toList

/-- Names that may have become `name`: for each pair whose target occurs in it, the name with that
pair undone everywhere. -/
def undone (table : Renaming) (name : String) : List String :=
  (table.pairs.filterMap fun pair =>
    if occursIn pair.target.toList name.toList then
      some (String.ofList (replaceAll pair.target.toList pair.source.toList name.toList))
    else none).eraseDups

end Renaming

theorem occursIn_iff {part text : List Char} : occursIn part text = true ↔ part <:+: text := by
  induction text with
  | nil => cases part <;> simp [occursIn]
  | cons c rest ih =>
    rw [List.infix_cons_iff, ← ih]
    simp [occursIn, List.isPrefixOf_iff_prefix]

end ClassRenaming
