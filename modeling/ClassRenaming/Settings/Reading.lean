import ClassRenaming.FileTree.Basic
import ClassRenaming.Settings.Basic
import ClassRenaming.Toml.Reading

/-!
Settings from a TOML text. Every key may be absent, none may be unknown, and a table without pairs
stands for the usual one. A group of settings may also be an array of its values in their order.
-/

namespace ClassRenaming

open Toml

namespace Settings

def optional {α : Type} (entries : List (String × Value)) (key : String) (usual : α)
    (read : Value → Option α) : Option α :=
  match entries.lookup key with
  | some value => read value
  | none => some usual

def onlyKeys (keys : List String) (entries : List (String × Value)) : Option Unit :=
  if entries.all (·.1 ∈ keys) then some () else none

def string? : Value → Option String
  | .string text => some text
  | _ => none

def boolean? : Value → Option Bool
  | .boolean value => some value
  | _ => none

def isEmptyGroup : Value → Bool
  | .table [] | .array [] => true
  | _ => false

def strategyOfName? : String → Option FrameStrategy
  | "safe" => some .safe
  | "fast" => some .fast
  | _ => none

/-- A strategy is its name, or a table with nothing but an empty group of that name. -/
def strategy? : Value → Option FrameStrategy
  | .string name => strategyOfName? name
  | .table [(name, group)] => if isEmptyGroup group then strategyOfName? name else none
  | _ => none

def pair? : Value → Option PairSetting
  | .table entries => do
    onlyKeys ["source", "target"] entries
    return ⟨← string? (← entries.lookup "source"), ← string? (← entries.lookup "target")⟩
  | .array (source :: target :: _) => do return ⟨← string? source, ← string? target⟩
  | _ => none

def pairs? : Value → Option (List PairSetting)
  | .array items => items.mapM pair?
  | _ => none

def logging? : Value → Option Logging
  | .table entries => do
    onlyKeys ["level", "json"] entries
    let level ← optional entries "level" Logging.default.level string?
    return { level, json := ← optional entries "json" Logging.default.json boolean? }
  | .array [] => some .default
  | .array [level] => do return { Logging.default with level := ← string? level }
  | .array (level :: json :: _) => do return { level := ← string? level, json := ← boolean? json }
  | _ => none

def ofEntries? (entries : List (String × Value)) : Option Settings := do
  onlyKeys ["strategy", "skip_source_namespace", "relocations", "logging"] entries
  let strategy ← optional entries "strategy" default.strategy strategy?
  let skipSource ← optional entries "skip_source_namespace" default.skipSource boolean?
  let pairs ← optional entries "relocations" defaultPairs pairs?
  let logging ← optional entries "logging" default.logging logging?
  return { strategy, skipSource, pairs := if pairs.isEmpty then defaultPairs else pairs, logging }

def ofText (text : String) : Except SettingsError Settings :=
  match Toml.parse text >>= ofEntries? with
  | none => .error .malformed
  | some settings => do
    settings.validate
    return settings

end Settings

/-! Settings from a file. A file of a fixed name in the working directory is read unasked. -/

namespace Settings

def fileName : String := "relocator.toml"

def ofFile (tree : FileTree) (path : String) : Except SettingsError Settings :=
  match tree.read path with
  | .error _ => .error .unreadable
  | .ok bytes =>
    match String.fromUTF8? ⟨bytes.toArray⟩ with
    | some text => ofText text
    | none => .error .unreadable

def load (tree : FileTree) (path : Option String) : Except SettingsError Settings :=
  match path with
  | some path => ofFile tree path
  | none => if tree.isFile fileName then ofFile tree fileName else .ok .default

end Settings

end ClassRenaming
