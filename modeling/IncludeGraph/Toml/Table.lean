import IncludeGraph.Toml.Value

/-!
# Tables under construction

A document fills its tables bit by bit.  How a table came to be decides how it may
be extended: headers may not repeat a table that has a header or that dotted keys
made, and dotted keys may only extend tables that dotted keys made.  Tables in
braces and arrays in brackets are values, which nothing extends.
-/

namespace IncludeGraph.Toml

/-- How a table came to be. -/
inductive Origin where
  /-- By a header of its own. -/
  | header
  /-- As part of the path of a header. -/
  | path
  /-- As part of a dotted key. -/
  | dottedKey
deriving DecidableEq

/-- What a table under construction holds at a key. -/
inductive Item where
  | value (value : Toml)
  | table (origin : Origin) (entries : List (String × Item))
  /-- An array of tables with headers; the last one is the one that is extended. -/
  | tables (done : List (List (String × Item))) (last : List (String × Item))

abbrev Entries := List (String × Item)

mutual

def Item.toToml : Item → Toml
  | .value value => value
  | .table _ entries => .table (tomlEntries entries)
  | .tables done last => .array (tomlTables done ++ [.table (tomlEntries last)])

def tomlEntries : List (String × Item) → List (String × Toml)
  | [] => []
  | (key, item) :: entries => (key, item.toToml) :: tomlEntries entries

def tomlTables : List (List (String × Item)) → List Toml
  | [] => []
  | entries :: tables => .table (tomlEntries entries) :: tomlTables tables

end

/-- Replaces the item at a key, or adds one; `none` if `f` refuses. -/
def update (key : String) (f : Option Item → Option Item) : Entries → Option Entries
  | [] => (f none).map fun item => [(key, item)]
  | entry :: entries =>
    if entry.1 = key then (f (some entry.2)).map fun item => (key, item) :: entries
    else (update key f entries).map (entry :: ·)

/-- Changes the table that the path of a header leads to.  Missing tables on the way
are made, and of an array of tables the last one is taken. -/
def within (f : Entries → Option Entries) : (path : List String) → Entries → Option Entries
  | [], entries => f entries
  | key :: path, entries => update key (fun
    | none => (within f path []).map (.table .path)
    | some (.table origin inner) => (within f path inner).map (.table origin)
    | some (.tables done last) => (within f path last).map (.tables done)
    | some (.value _) => none) entries

def declareTable (key : String) : Entries → Option Entries :=
  update key fun
    | none => some (.table .header [])
    | some (.table .path inner) => some (.table .header inner)
    | some _ => none

/-- Enters one more table of an array of tables. -/
def declareElement (key : String) : Entries → Option Entries :=
  update key fun
    | none => some (.tables [] [])
    | some (.tables done last) => some (.tables (done ++ [last]) [])
    | some _ => none

/-- Enters a value at a dotted key.  The table that takes the value must be the
current one or come from a dotted key. -/
def assign (value : Toml) : (keys : List String) → Entries → Option Entries
  | [], _ => none
  | [key], entries => update key (fun
    | none => some (.value value)
    | some _ => none) entries
  | key :: keys, entries => update key (fun
    | none => (assign value keys []).map (.table .dottedKey)
    | some (.table .dottedKey inner) => (assign value keys inner).map (.table .dottedKey)
    | some (.table .path inner) =>
      if keys.length = 1 then none else (assign value keys inner).map (.table .path)
    | some (.tables done last) =>
      if keys.length = 1 then none else (assign value keys last).map (.tables done)
    | some _ => none) entries

def inlineTable (pairs : List (List String × Toml)) : Option Toml := do
  let entries ← pairs.foldlM (fun entries (keys, value) => assign value keys entries) []
  return .table (tomlEntries entries)

end IncludeGraph.Toml
