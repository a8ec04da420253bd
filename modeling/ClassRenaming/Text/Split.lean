/-!
Texts cut at a character, or at an end. Nothing is lost: the pieces with the marks between them are
the text again.
-/

namespace ClassRenaming

def splitOn (mark : Char) : List Char → List (List Char)
  | [] => [[]]
  | c :: rest =>
    if c = mark then [] :: splitOn mark rest
    else
      match splitOn mark rest with
      | [] => [[c]]
      | piece :: pieces => (c :: piece) :: pieces

def splitFirst? (mark : Char) : List Char → Option (List Char × List Char)
  | [] => none
  | c :: rest =>
    if c = mark then some ([], rest)
    else (splitFirst? mark rest).map fun (before, after) => (c :: before, after)

def stripSuffix? (suffix text : List Char) : Option (List Char) :=
  if suffix.isSuffixOf text then some (text.take (text.length - suffix.length)) else none

def stripPrefix? (front text : List Char) : Option (List Char) :=
  if front.isPrefixOf text then some (text.drop front.length) else none

theorem splitOn_ne_nil (mark : Char) (text : List Char) : splitOn mark text ≠ [] := by
  cases text with
  | nil => simp [splitOn]
  | cons c rest =>
    simp only [splitOn]
    split
    · simp
    · split <;> simp

theorem intercalate_splitOn (mark : Char) (text : List Char) :
    [mark].intercalate (splitOn mark text) = text := by
  induction text with
  | nil => rfl
  | cons c rest ih =>
    simp only [splitOn]
    split
    · next same =>
      subst same
      cases pieces : splitOn c rest with
      | nil => exact absurd pieces (splitOn_ne_nil c rest)
      | cons piece others =>
        rw [pieces] at ih
        simpa [List.intercalate] using ih
    · cases pieces : splitOn mark rest with
      | nil => exact absurd pieces (splitOn_ne_nil mark rest)
      | cons piece others =>
        rw [pieces] at ih
        cases others <;> simpa [List.intercalate] using ih

/-! White space of the Unicode standard, and texts without it at their ends. -/

def isBlank (c : Char) : Bool :=
  let code := c.toNat
  (0x09 ≤ code && code ≤ 0x0D) || code == 0x20 || code == 0x85 || code == 0xA0 || code == 0x1680 ||
    (0x2000 ≤ code && code ≤ 0x200A) || code == 0x2028 || code == 0x2029 || code == 0x202F ||
    code == 0x205F || code == 0x3000

def trimChars (text : List Char) : List Char :=
  ((text.dropWhile isBlank).reverse.dropWhile isBlank).reverse

def trimmed (text : String) : String := String.ofList (trimChars text.toList)

end ClassRenaming
