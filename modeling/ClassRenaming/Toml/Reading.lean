import ClassRenaming.Toml.Lexical
import ClassRenaming.Toml.Scalars
import ClassRenaming.Toml.Tables

/-!
Reading a TOML text. Every step of a scanner either takes a character or goes one level down, so the
length of the text bounds the steps. How deep values nest is bounded by a limit of its own.
-/

namespace ClassRenaming.Toml

def depthLimit : Nat := 79

mutual

def takeValue : Nat → Nat → List Char → Option (Value × List Char)
  | 0, _, _ => none
  | _ + 1, _, 't' :: 'r' :: 'u' :: 'e' :: rest => some (.boolean true, rest)
  | _ + 1, _, 'f' :: 'a' :: 'l' :: 's' :: 'e' :: rest => some (.boolean false, rest)
  | _ + 1, 0, '[' :: _ | _ + 1, 0, '\x7b' :: _ => none
  | steps + 1, levels + 1, '[' :: rest => do
    let (items, rest) ← takeItems steps levels (← skipFill false rest)
    return (.array items, rest)
  | steps + 1, levels + 1, '\x7b' :: rest =>
    match skipGap rest with
    | '\x7d' :: rest => some (.table [], rest)
    | rest => do
      let (entries, rest) ← takePairs steps levels [] rest
      return (.table (entryValues entries), rest)
  | _ + 1, _, text =>
    match takeString text with
    | some (text, rest) => some (.string (String.ofList text), rest)
    | none => (skipScalar? text).map (.scalar, ·)

def takeItems : Nat → Nat → List Char → Option (List Value × List Char)
  | 0, _, _ => none
  | _ + 1, _, ']' :: rest => some ([], rest)
  | steps + 1, levels, text => do
    let (first, rest) ← takeValue steps levels text
    match ← skipFill false rest with
    | ',' :: rest =>
      let (others, rest) ← takeItems steps levels (← skipFill false rest)
      return (first :: others, rest)
    | ']' :: rest => return ([first], rest)
    | _ => none

def takePairs : Nat → Nat → Entries → List Char → Option (Entries × List Char)
  | 0, _, _, _ => none
  | steps + 1, levels, entries, text => do
    let (path, key, rest) ← takePath depthLimit text
    match rest with
    | '=' :: rest =>
      let (value, rest) ← takeValue steps levels (skipGap rest)
      let entries ← entries.set path key value
      match skipGap rest with
      | ',' :: rest => takePairs steps levels entries rest
      | '\x7d' :: rest => return (entries, rest)
      | _ => none
    | _ => none

end

def takeStatement (text : List Char) : Option (Statement × List Char) :=
  match text with
  | '[' :: '[' :: rest => do
    match ← takePath depthLimit rest with
    | (path, key, ']' :: ']' :: rest) => return (.itemHeader path key, rest)
    | _ => none
  | '[' :: rest => do
    match ← takePath depthLimit rest with
    | (path, key, ']' :: rest) => return (.header path key, rest)
    | _ => none
  | _ => do
    match ← takePath depthLimit text with
    | (path, key, '=' :: rest) =>
      let (value, rest) ← takeValue (2 * (text.length + 1)) depthLimit (skipGap rest)
      return (.pair path key value, rest)
    | _ => none

def takeStatements : Nat → List Char → Option (List Statement)
  | 0, _ => none
  | steps + 1, text => do
    match ← skipFill false text with
    | [] => return []
    | text =>
      let (statement, rest) ← takeStatement text
      if endsLine (skipGap rest) then return statement :: (← takeStatements steps rest)
      else none

/-- A mark of the byte order may stand in front of a text. -/
def skipMark : List Char → List Char
  | '\ufeff' :: rest => rest
  | rest => rest

def parse (text : String) : Option (List (String × Value)) := do
  let text := skipMark text.toList
  let statements ← takeStatements (text.length + 1) text
  return entryValues (← build [] [] statements)

end ClassRenaming.Toml
