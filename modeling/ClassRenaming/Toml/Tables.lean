/-!
Values of a TOML text as far as settings need them, and the rules by which its statements put tables
together.
-/

namespace ClassRenaming.Toml

inductive Value where
  | string (text : String)
  | boolean (value : Bool)
  /-- A number or a date, of which no setting is made. -/
  | scalar
  | array (items : List Value)
  | table (entries : List (String × Value))
  deriving Inhabited

inductive Origin where
  /-- A header names it. -/
  | header
  /-- A longer header leads through it. -/
  | implied
  /-- A dotted key leads through it. -/
  | dotted
  deriving DecidableEq, Repr, Inhabited

inductive Node where
  | value (value : Value)
  | table (origin : Origin) (entries : List (String × Node))
  /-- An array of tables, the newest first. -/
  | tables (items : List (List (String × Node)))
  deriving Inhabited

abbrev Entries := List (String × Node)

namespace Entries

def put (key : String) (node : Node) : Entries → Entries
  | [] => [(key, node)]
  | (other, old) :: rest =>
    if other = key then (key, node) :: rest else (other, old) :: put key node rest

/-- Changes the table that a path leads to, making tables on the way. A dotted key does not lead
through a table that a header names, and nothing leads into a complete value. The change is told
how the table that it is made to came to be. -/
def modifyAt (through : Origin) (change : Origin → Entries → Option Entries) :
    Origin → List String → Entries → Option Entries
  | origin, [], entries => change origin entries
  | _, key :: path, entries =>
    match entries.lookup key with
    | none => do
      let inner ← modifyAt through change through path []
      return put key (.table through inner) entries
    | some (.table origin inner) => do
      if through = .dotted ∧ origin = .header then none
      let inner ← modifyAt through change origin path inner
      return put key (.table origin inner) entries
    | some (.tables (last :: earlier)) => do
      let last ← modifyAt through change .header path last
      return put key (.tables (last :: earlier)) entries
    | some (.tables []) | some (.value _) => none

def add (key : String) (value : Value) (entries : Entries) : Option Entries :=
  match entries.lookup key with
  | none => some (entries ++ [(key, .value value)])
  | some _ => none

/-- Sets a dotted key; the tables on its way are open to dotted keys only. -/
def set (path : List String) (key : String) (value : Value) (entries : Entries) :
    Option Entries :=
  let change (origin : Origin) (inner : Entries) : Option Entries :=
    if path.isEmpty ∨ origin = .dotted then add key value inner else none
  modifyAt .dotted change .header path entries

/-- Opens the table that a header names. It may have been led through before, but not named. -/
def openTable (key : String) (entries : Entries) : Option Entries :=
  match entries.lookup key with
  | none => some (put key (.table .header []) entries)
  | some (.table .implied inner) => some (put key (.table .header inner) entries)
  | some _ => none

def openItem (key : String) (entries : Entries) : Option Entries :=
  match entries.lookup key with
  | none => some (put key (.tables [[]]) entries)
  | some (.tables items) => some (put key (.tables ([] :: items)) entries)
  | some _ => none

end Entries

mutual

def Node.toValue : Node → Value
  | .value value => value
  | .table _ entries => .table (entryValues entries)
  | .tables items => .array (itemValues items).reverse

def entryValues : List (String × Node) → List (String × Value)
  | [] => []
  | (key, node) :: rest => (key, node.toValue) :: entryValues rest

def itemValues : List (List (String × Node)) → List Value
  | [] => []
  | item :: rest => .table (entryValues item) :: itemValues rest

end

inductive Statement where
  | header (path : List String) (key : String)
  | itemHeader (path : List String) (key : String)
  | pair (path : List String) (key : String) (value : Value)
  deriving Inhabited

def build : List String → Entries → List Statement → Option Entries
  | _, entries, [] => some entries
  | current, entries, statement :: rest => do
    match statement with
    | .header path key =>
      let entries ← entries.modifyAt .implied (fun _ => Entries.openTable key) .header path
      build (path ++ [key]) entries rest
    | .itemHeader path key =>
      let entries ← entries.modifyAt .implied (fun _ => Entries.openItem key) .header path
      build (path ++ [key]) entries rest
    | .pair path key value =>
      let entries ← entries.modifyAt .implied (fun _ => Entries.set path key value) .header current
      build current entries rest

end ClassRenaming.Toml
