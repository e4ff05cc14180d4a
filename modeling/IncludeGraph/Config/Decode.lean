import IncludeGraph.Config
import IncludeGraph.Report.Json
import IncludeGraph.Toml.Parser

/-!
# Reading configurations

A configuration is read from TOML or from JSON.  Every part may be left out and
unknown ones are skipped.  A table may also be given as the list of its values in
their order, as far as they go.
-/

namespace IncludeGraph

/-- A value as far as configurations tell values apart. -/
inductive Setting where
  | nothing
  | truth (value : Bool)
  | text (value : String)
  | list (items : List Setting)
  | table (entries : List (String × Setting))
  /-- A value that no part of a configuration can have. -/
  | other

namespace Setting

mutual

/-- A TOML value.  A date is a table without known parts. -/
def ofToml : Toml → Setting
  | .string value => text value
  | .bool value => truth value
  | .array items => list (ofTomlItems items)
  | .table entries => table (ofTomlEntries entries)
  | .dateTime literal => table [("", text literal)]
  | .integer _ => other
  | .float _ => other

def ofTomlItems : List Toml → List Setting
  | [] => []
  | item :: items => ofToml item :: ofTomlItems items

def ofTomlEntries : List (String × Toml) → List (String × Setting)
  | [] => []
  | (key, value) :: entries => (key, ofToml value) :: ofTomlEntries entries

end

mutual

/-- A JSON value.  Keys that are no proper texts are left out. -/
def ofJson : Json → Setting
  | .null => nothing
  | .bool value => truth value
  | .string (some value) => text value
  | .array items => list (ofJsonItems items)
  | .object members => table (Json.sortEntries (ofJsonMembers members))
  | .number _ => other
  | .string none => other

def ofJsonItems : List Json → List Setting
  | [] => []
  | item :: items => ofJson item :: ofJsonItems items

def ofJsonMembers : List (Option String × Json) → List (String × Setting)
  | [] => []
  | (some key, value) :: members => (key, ofJson value) :: ofJsonMembers members
  | (none, _) :: members => ofJsonMembers members

end

/-- What differs between the languages that configurations are written in. -/
structure Language where
  /-- A list that stands for a table may have more items than the table has parts. -/
  extraItems : Bool
  /-- The values that stand for the missing data of a plain choice. -/
  isVoid : Setting → Bool

def Language.toml : Language where
  extraItems := true
  isVoid
    | list [] => true
    | table [] => true
    | _ => false

def Language.json : Language where
  extraItems := false
  isVoid
    | nothing => true
    | _ => false

/-- The values of the parts of a table, in the order of the keys; `none` within the
result for a part that is left out. -/
def parts? (language : Language) (keys : List String) : Setting → Option (List (Option Setting))
  | table entries => some (keys.map fun key => List.lookup key entries)
  | list items =>
    if keys.length < items.length ∧ !language.extraItems then none
    else some ((List.range keys.length).map (items[·]?))
  | _ => none

def orDefault {α : Type} (read : Setting → Option α) (default : α) : Option Setting → Option α
  | none => some default
  | some setting => read setting

def truth? : Setting → Option Bool
  | truth value => some value
  | _ => none

def text? : Setting → Option String
  | text value => some value
  | _ => none

def texts? : Setting → Option (List String)
  | list items => items.mapM text?
  | _ => none

/-- A policy by its name.  The name may also be the only key of a table. -/
def policy? (language : Language) : Setting → Option SelfLoopPolicy
  | text name => SelfLoopPolicy.ofName? name
  | table [(name, value)] => if language.isVoid value then SelfLoopPolicy.ofName? name else none
  | _ => none

def collect? (language : Language) (setting : Setting) : Option CollectConfig := do
  let keys := ["extensions", "header_extensions", "exclude", "respect_gitignore"]
  match ← setting.parts? language keys with
  | [extensions, headerExtensions, exclude, respectGitignore] =>
    let base := CollectConfig.default
    return {
      extensions := ← orDefault texts? base.extensions extensions
      headerExtensions := ← orDefault texts? base.headerExtensions headerExtensions
      exclude := ← orDefault texts? base.exclude exclude
      respectGitignore := ← orDefault truth? base.respectGitignore respectGitignore
    }
  | _ => none

def selfLoops? (language : Language) (setting : Setting) : Option SelfLoopPolicy := do
  match ← setting.parts? language ["self_loops"] with
  | [policy] => orDefault (policy? language) Config.default.selfLoops policy
  | _ => none

def config? (language : Language) (setting : Setting) : Option Config := do
  match ← setting.parts? language ["collect", "analysis"] with
  | [collect, analysis] =>
    return {
      collect := ← orDefault (collect? language) Config.default.collect collect
      selfLoops := ← orDefault (selfLoops? language) Config.default.selfLoops analysis
    }
  | _ => none

end Setting

def Config.ofTomlText? (text : List Char) : Option Config := do
  (Setting.ofToml (← Toml.parse text)).config? .toml

def Config.ofJson? (value : Json) : Option Config := (Setting.ofJson value).config? .json

def CollectConfig.ofJson? (value : Json) : Option CollectConfig :=
  (Setting.ofJson value).collect? .json

end IncludeGraph
