import ClassRenaming.Text.Split

/-!
The arguments of the command line: `rewrite`, an input, and options in any order. An option that
takes a value has it attached or in the next argument, and every option but `--relocate` and
`--classpath` is given at most once. Behind `--` nothing is an option.
-/

namespace ClassRenaming

structure Options where
  output : Option String
  /-- Pairs that replace the table of the settings. -/
  pairs : List String
  fast : Bool
  classpath : List String
  jdk : Option String
  dump : Option String
  settings : Option String
  deriving DecidableEq, Repr, Inhabited

inductive ValueOption where
  | output | relocate | classpath | jdk | dump | config
  deriving DecidableEq, Repr, Inhabited

namespace Options

def empty : Options :=
  { output := none, pairs := [], fast := false, classpath := [], jdk := none, dump := none,
    settings := none }

def fill (place : Option String) (path : String) : Option (Option String) :=
  if place.isSome ∨ path = "" then none else some (some path)

def setFast (options : Options) : Option Options :=
  if options.fast then none else some { options with fast := true }

def set (options : Options) (value : String) : ValueOption → Option Options
  | .output => do return { options with output := ← fill options.output value }
  | .relocate => some { options with pairs := options.pairs ++ [value] }
  | .classpath =>
    if value = "" then none else some { options with classpath := options.classpath ++ [value] }
  | .jdk => do return { options with jdk := ← fill options.jdk value }
  | .dump => do return { options with dump := ← fill options.dump value }
  | .config => do return { options with settings := ← fill options.settings value }

end Options

inductive Argument where
  | positional (text : String)
  | fast
  /-- An option, with its value if that is attached. -/
  | valued (option : ValueOption) (value : Option String)
  | unknown
  deriving DecidableEq, Repr, Inhabited

namespace Argument

def longNames : List (String × ValueOption) :=
  [("output", .output), ("relocate", .relocate), ("classpath", .classpath), ("jdk", .jdk),
    ("dump", .dump), ("config", .config)]

def ofLong (text : List Char) : Argument :=
  let (name, value) :=
    match splitFirst? '=' text with
    | some (name, value) => (name, some (String.ofList value))
    | none => (text, none)
  match longNames.lookup (String.ofList name) with
  | some option => .valued option value
  | none => if text = "fast".toList then .fast else .unknown

/-- An option of one letter. An equals sign in front of an attached value is no part of it. -/
def ofShort : List Char → Argument
  | ['o'] => .valued .output none
  | 'o' :: '=' :: value | 'o' :: value => .valued .output (some (String.ofList value))
  | _ => .unknown

def ofText (text : String) : Argument :=
  match text.toList with
  | '-' :: '-' :: name => ofLong name
  | '-' :: c :: rest => ofShort (c :: rest)
  | _ => .positional text

end Argument

structure Arguments extends Options where
  input : String
  deriving DecidableEq, Repr, Inhabited

namespace Arguments

def split (options : Options) : List String → Option (Options × List String)
  | [] => some (options, [])
  | "--" :: rest => some (options, rest)
  | text :: rest =>
    match Argument.ofText text with
    | .positional path => do
      let (options, paths) ← split options rest
      return (options, path :: paths)
    | .fast => do split (← options.setFast) rest
    | .valued option (some value) => do split (← options.set value option) rest
    | .valued option none =>
      match rest with
      | value :: rest =>
        match Argument.ofText value with
        | .positional value => do split (← options.set value option) rest
        | _ => none
      | [] => none
    | .unknown => none

def ofTexts? : List String → Option Arguments
  | "rewrite" :: texts => do
    match ← split .empty texts with
    | (options, [input]) => if input = "" then none else some { options with input }
    | _ => none
  | _ => none

end Arguments

end ClassRenaming
