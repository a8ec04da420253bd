/-!
The smallest parts of a TOML text: keys, strings, and what may stand between statements. A scanner
takes a part off the front of a text and hands back the rest.
-/

namespace ClassRenaming.Toml

def isTextChar (c : Char) : Bool := c == '\t' || (' ' ≤ c && c ≠ '\x7f')

def isGap (c : Char) : Bool := c == ' ' || c == '\t'

def skipGap (text : List Char) : List Char := text.dropWhile isGap

def skipNewline? : List Char → Option (List Char)
  | '\n' :: rest | '\r' :: '\n' :: rest => some rest
  | _ => none

def skipSpace : List Char → List Char
  | ' ' :: rest | '\t' :: rest | '\n' :: rest | '\r' :: '\n' :: rest => skipSpace rest
  | rest => rest

def skipFill (inComment : Bool) : List Char → Option (List Char)
  | [] => some []
  | '\n' :: rest | '\r' :: '\n' :: rest => skipFill false rest
  | c :: rest =>
    if inComment then if isTextChar c then skipFill true rest else none
    else if c = '#' then skipFill true rest
    else if isGap c then skipFill false rest
    else some (c :: rest)

def endsLine (text : List Char) : Bool :=
  text.isEmpty || text.head? == some '#' || (skipNewline? text).isSome

def hexDigit? (c : Char) : Option Nat :=
  if '0' ≤ c ∧ c ≤ '9' then some (c.toNat - '0'.toNat)
  else if 'a' ≤ c ∧ c ≤ 'f' then some (c.toNat - 'a'.toNat + 10)
  else if 'A' ≤ c ∧ c ≤ 'F' then some (c.toNat - 'A'.toNat + 10)
  else none

def takeHex : Nat → Nat → List Char → Option (Nat × List Char)
  | 0, high, rest => some (high, rest)
  | _ + 1, _, [] => none
  | count + 1, high, c :: rest => do takeHex count (16 * high + (← hexDigit? c)) rest

def takeCodePoint (count : Nat) (text : List Char) : Option (Char × List Char) := do
  let (code, rest) ← takeHex count 0 text
  if code.isValidChar then some (Char.ofNat code, rest) else none

def takeEscape : List Char → Option (Char × List Char)
  | 'b' :: rest => some ('\x08', rest)
  | 't' :: rest => some ('\t', rest)
  | 'n' :: rest => some ('\n', rest)
  | 'f' :: rest => some ('\x0c', rest)
  | 'r' :: rest => some ('\r', rest)
  | '"' :: rest => some ('"', rest)
  | '\\' :: rest => some ('\\', rest)
  | 'u' :: rest => takeCodePoint 4 rest
  | 'U' :: rest => takeCodePoint 8 rest
  | _ => none

abbrev Taken := Option (List Char × List Char)

def Taken.cons (c : Char) (taken : Taken) : Taken :=
  taken.map fun (text, rest) => (c :: text, rest)

/-- The text of a string up to its closing quote; every step takes a character at least. -/
def takeBasic : Nat → List Char → Taken
  | 0, _ | _ + 1, [] => none
  | _ + 1, '"' :: rest => some ([], rest)
  | steps + 1, '\\' :: rest => do
    let (c, rest) ← takeEscape rest
    Taken.cons c (takeBasic steps rest)
  | steps + 1, c :: rest => if isTextChar c then Taken.cons c (takeBasic steps rest) else none

def takeLiteral : List Char → Taken
  | [] => none
  | '\'' :: rest => some ([], rest)
  | c :: rest => if isTextChar c then Taken.cons c (takeLiteral rest) else none

/-- Up to two quotes right behind the three that close a string of several lines belong to it. -/
def closingQuotes (quote : Char) : List Char → List Char × List Char
  | a :: b :: rest =>
    if a ≠ quote then ([], a :: b :: rest)
    else if b ≠ quote then ([a], b :: rest)
    else ([a, b], rest)
  | [a] => if a = quote then ([a], []) else ([], [a])
  | [] => ([], [])

/-- A string of several lines. A backslash at the end of a line takes the space behind it away. -/
def takeLines : Nat → List Char → Taken
  | 0, _ | _ + 1, [] => none
  | _ + 1, '"' :: '"' :: '"' :: rest => some (closingQuotes '"' rest)
  | steps + 1, '\r' :: '\n' :: rest | steps + 1, '\n' :: rest =>
    Taken.cons '\n' (takeLines steps rest)
  | steps + 1, '\\' :: rest =>
    match skipNewline? (skipGap rest) with
    | some rest => takeLines steps (skipSpace rest)
    | none => do
      let (c, rest) ← takeEscape rest
      Taken.cons c (takeLines steps rest)
  | steps + 1, c :: rest => if isTextChar c then Taken.cons c (takeLines steps rest) else none

def takeLiteralLines : List Char → Taken
  | [] => none
  | '\'' :: '\'' :: '\'' :: rest => some (closingQuotes '\'' rest)
  | '\r' :: '\n' :: rest | '\n' :: rest => Taken.cons '\n' (takeLiteralLines rest)
  | c :: rest => if isTextChar c then Taken.cons c (takeLiteralLines rest) else none

def skipFirstNewline (text : List Char) : List Char := (skipNewline? text).getD text

def takeString : List Char → Taken
  | '"' :: '"' :: '"' :: rest => takeLines (rest.length + 1) (skipFirstNewline rest)
  | '\'' :: '\'' :: '\'' :: rest => takeLiteralLines (skipFirstNewline rest)
  | '"' :: rest => takeBasic (rest.length + 1) rest
  | '\'' :: rest => takeLiteral rest
  | _ => none

def isKeyChar (c : Char) : Bool := c.isAlphanum || c == '_' || c == '-'

def takeKey : List Char → Taken
  | '"' :: rest => takeBasic (rest.length + 1) rest
  | '\'' :: rest => takeLiteral rest
  | text =>
    match text.takeWhile isKeyChar with
    | [] => none
    | key => some (key, text.dropWhile isKeyChar)

/-- A dotted key of so many parts at most: the parts in front of the last dot, and the last. -/
def takePath : Nat → List Char → Option (List String × String × List Char)
  | 0, _ => none
  | parts + 1, text => do
    let (key, rest) ← takeKey (skipGap text)
    match skipGap rest with
    | '.' :: rest =>
      let (path, last, rest) ← takePath parts rest
      return (String.ofList key :: path, last, rest)
    | rest => return ([], String.ofList key, rest)

end ClassRenaming.Toml
