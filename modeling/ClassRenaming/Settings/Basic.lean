import ClassRenaming.Relocation
import ClassRenaming.Text.Split

/-!
Settings of a run: the renaming table as it was given, what to do with frames, and how much to log.
A table is checked before it is used: no name in it is empty, no source stands twice, and no target
contains a source, which would be renamed again.
-/

namespace ClassRenaming

structure PairSetting where
  source : String
  target : String
  deriving DecidableEq, Repr, Inhabited

inductive PairFault where
  | noEquals
  | emptySource
  | emptyTarget
  | listedTwice
  | containsSource (source : String)
  deriving DecidableEq, Repr, Inhabited

def PairFault.message : PairFault → String
  | noEquals => "expected SRC=DST"
  | emptySource => "source prefix is empty"
  | emptyTarget => "target prefix is empty"
  | listedTwice => "source prefix is listed twice"
  | containsSource source => "target contains source prefix " ++ quoted source

inductive SettingsError where
  /-- A file that cannot be read as text. -/
  | unreadable
  /-- A text that is malformed, or that holds something else than settings. -/
  | malformed
  | invalidPair (source target : String) (fault : PairFault)
  deriving DecidableEq, Repr, Inhabited

def SettingsError.message? : SettingsError → Option String
  | unreadable | malformed => none
  | invalidPair source target fault =>
    some ("invalid relocation " ++ quoted source ++ " -> " ++ quoted target ++ ": " ++
      fault.message)

namespace PairSetting

def normalized (pair : PairSetting) : NamePair :=
  .ofTexts (trimmed pair.source) (trimmed pair.target)

def ofText (text : String) : Except SettingsError PairSetting :=
  let chars := text.toList
  match chars.dropWhile (· ≠ '=') with
  | [] => .error (.invalidPair text "" .noEquals)
  | _ :: target =>
    let source := chars.takeWhile (· ≠ '=')
    .ok ⟨String.ofList (trimChars source), String.ofList (trimChars target)⟩

end PairSetting

structure Logging where
  level : String
  json : Bool
  deriving DecidableEq, Repr, Inhabited

namespace Logging

def default : Logging := { level := "info", json := false }

def levels : List String := ["off", "error", "warn", "info", "debug", "trace"]

def filter (logging : Logging) : String :=
  let level := trimmed logging.level
  if level = "" then "info"
  else if level = "warning" then "warn"
  else if level.toLower ∈ levels then level.toLower
  else level

end Logging

structure Settings where
  strategy : FrameStrategy
  skipSource : Bool
  pairs : List PairSetting
  logging : Logging
  deriving DecidableEq, Repr, Inhabited

namespace Settings

def defaultPairs : List PairSetting :=
  [⟨"javax/servlet", "jakarta/servlet"⟩, ⟨"javax/validation", "jakarta/validation"⟩]

def default : Settings :=
  { strategy := .safe, skipSource := true, pairs := defaultPairs, logging := .default }

def fault (pair : NamePair) (reason : PairFault) : SettingsError :=
  .invalidPair pair.source pair.target reason

def checkSources : List String → List NamePair → Except SettingsError Unit
  | _, [] => .ok ()
  | earlier, pair :: rest =>
    if pair.source = "" then .error (fault pair .emptySource)
    else if pair.target = "" then .error (fault pair .emptyTarget)
    else if pair.source ∈ earlier then .error (fault pair .listedTwice)
    else checkSources (pair.source :: earlier) rest

def checkTargets (sources : List String) : List NamePair → Except SettingsError Unit
  | [] => .ok ()
  | pair :: rest =>
    match sources.find? fun source => occursIn source.toList pair.target.toList with
    | some source => .error (fault pair (.containsSource source))
    | none => checkTargets sources rest

def checkPairs (pairs : List NamePair) : Except SettingsError Unit := do
  checkSources [] pairs
  checkTargets (pairs.map NamePair.source) pairs

def normalizedPairs (settings : Settings) : List NamePair :=
  settings.pairs.map PairSetting.normalized

def validate (settings : Settings) : Except SettingsError Unit :=
  checkPairs settings.normalizedPairs

/-- Replaces the table, unless the new one is empty; it is replaced also if it does not pass. -/
def setPairs (pairs : List PairSetting) (settings : Settings) :
    Settings × Except SettingsError Unit :=
  if pairs.isEmpty then (settings, .ok ())
  else
    let settings := { settings with pairs }
    (settings, settings.validate)

def table (settings : Settings) : Renaming := .ofPairs settings.normalizedPairs

def options (settings : Settings) : RelocationOptions :=
  { strategy := settings.strategy, skipSource := settings.skipSource }

end Settings

end ClassRenaming
