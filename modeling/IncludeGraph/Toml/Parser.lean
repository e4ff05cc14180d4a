import IncludeGraph.Toml.Number
import IncludeGraph.Toml.Table
import IncludeGraph.Toml.Text

/-!
# Reading TOML documents

A document is a sequence of lines: headers that name the table that follows, and
keys with their values.  `parse` reads version 1.0 of the language.
-/

namespace IncludeGraph.Toml

/-- Leaves out white space, line breaks and comments; `comment` says that the text
starts inside a comment. -/
def skipFiller (comment : Bool) : List Char → List Char
  | [] => []
  | '\n' :: rest => skipFiller false rest
  | '\r' :: '\n' :: rest => skipFiller false rest
  | c :: rest =>
    if comment then if isPlain c then skipFiller true rest else c :: rest
    else if c = '#' then skipFiller true rest
    else if isSpace c then skipFiller false rest
    else c :: rest

def word? (word : List Char) (value : Toml) (text : List Char) : Option (Toml × List Char) :=
  (word.isPrefixOf? text).map (value, ·)

/-- Reads a value that holds no others. -/
def scalar? (text : List Char) : Option (Toml × List Char) :=
  match text with
  | 't' :: _ => word? "true".toList (.bool true) text
  | 'f' :: _ => word? "false".toList (.bool false) text
  | _ =>
    match string? text with
    | some (value, rest) => some (.string value, rest)
    | none => numeral? text

def arrayItems (value? : List Char → Option (Toml × List Char)) :
    (fuel : Nat) → Array Toml → List Char → Option (Toml × List Char)
  | 0, _, _ => none
  | fuel + 1, items, text =>
    match skipFiller false text with
    | ']' :: rest => some (.array items.toList, rest)
    | text => do
      let (item, rest) ← value? text
      match skipFiller false rest with
      | ',' :: rest => arrayItems value? fuel (items.push item) rest
      | ']' :: rest => some (.array (items.push item).toList, rest)
      | _ => none

def pair? (value? : List Char → Option (Toml × List Char)) (text : List Char) :
    Option ((List String × Toml) × List Char) := do
  let (keys, rest) ← key? text
  let rest ← after? '=' rest
  let (value, rest) ← value? (skipSpace rest)
  return ((keys, value), rest)

/-- Reads the entries of a table in braces, of which there is at least one. -/
def inlinePairs (value? : List Char → Option (Toml × List Char)) :
    (fuel : Nat) → Array (List String × Toml) → List Char → Option (Toml × List Char)
  | 0, _, _ => none
  | fuel + 1, pairs, text => do
    let (pair, rest) ← pair? value? text
    match skipSpace rest with
    | ',' :: rest => inlinePairs value? fuel (pairs.push pair) rest
    | '\x7d' :: rest => (inlineTable (pairs.push pair).toList).map (·, rest)
    | _ => none

/-- Reads a value; `depth` bounds how deep it may be. -/
def value? : (depth : Nat) → List Char → Option (Toml × List Char)
  | 0, text => scalar? text
  | depth + 1, text =>
    match text with
    | '[' :: rest => arrayItems (value? depth) (rest.length + 1) #[] rest
    | '\x7b' :: rest =>
      match skipSpace rest with
      | '\x7d' :: rest => some (.table [], rest)
      | rest => inlinePairs (value? depth) (rest.length + 1) #[] rest
    | text => scalar? text

/-- Reads the rest of a line, which may hold nothing but a comment. -/
def lineEnd? (text : List Char) : Option (List Char) :=
  let text := skipSpace text
  let text := if text.head? = some '#' then text.dropWhile isPlain else text
  match text with
  | [] => some []
  | '\n' :: rest => some rest
  | '\r' :: '\n' :: rest => some rest
  | _ => none

/-- The part of a document that has been read: its tables, and the path of the one
that the next values belong to. -/
structure Draft where
  root : Entries
  current : List String

namespace Draft

/-- Goes to a new table, which `declare` enters at the last key of the path. -/
def openTable (draft : Draft) (declare : String → Entries → Option Entries) (path : List String) :
    Option Draft := do
  let root ← within (declare (← path.getLast?)) path.dropLast draft.root
  return ⟨root, path⟩

def enter (draft : Draft) (pair : List String × Toml) : Option Draft := do
  let root ← within (assign pair.2 pair.1) draft.current draft.root
  return { draft with root := root }

end Draft

def line? (draft : Draft) (text : List Char) : Option (Draft × List Char) :=
  match skipSpace text with
  | '[' :: '[' :: rest => do
    let (path, rest) ← key? rest
    let rest ← List.isPrefixOf? [']', ']'] rest
    return (← draft.openTable declareElement path, ← lineEnd? rest)
  | '[' :: rest => do
    let (path, rest) ← key? rest
    let rest ← after? ']' rest
    return (← draft.openTable declareTable path, ← lineEnd? rest)
  | c :: rest =>
    if c = '#' ∨ c = '\n' ∨ c = '\r' then (lineEnd? (c :: rest)).map (draft, ·)
    else do
      let (pair, rest) ← pair? (value? maxDepth) (c :: rest)
      return (← draft.enter pair, ← lineEnd? rest)
  | [] => some (draft, [])

/-- Reads lines up to the end; `fuel` bounds their number. -/
def linesToEnd : (fuel : Nat) → Draft → List Char → Option Draft
  | _, draft, [] => some draft
  | 0, _, _ => none
  | fuel + 1, draft, text => do
    let (draft, rest) ← line? draft text
    linesToEnd fuel draft rest

/-- Reads a document, which may start with a byte order mark.  The result is the
table at its root. -/
def parse (text : List Char) : Option Toml := do
  let text := if text.head? = some '\ufeff' then text.drop 1 else text
  let draft ← linesToEnd text.length ⟨[], []⟩ text
  return .table (tomlEntries draft.root)

end IncludeGraph.Toml
