import IncludeGraph.Text.Digit

/-!
# TOML strings and keys

Basic strings stand in quotes and have escapes, literal strings stand in
apostrophes and have none.  In threefold quotes or apostrophes a string may go
over several lines; it may then hold up to two quotes in a row, also at its end.
-/

namespace IncludeGraph.Toml

open Text

def apostrophe : Char := '\x27'

def isSpace (c : Char) : Bool := c == ' ' || c == '\t'

def skipSpace (text : List Char) : List Char := text.dropWhile isSpace

/-- A character that may stand in strings and comments: no control character but
the tab. -/
def isPlain (c : Char) : Bool := c == '\t' || (0x20 ≤ c.toNat && c.toNat != 0x7f)

def escaped? (c : Char) : Option Char :=
  if c = '"' then some '"'
  else if c = '\\' then some '\\'
  else if c = 'b' then some '\x08'
  else if c = 'f' then some '\x0c'
  else if c = 'n' then some '\n'
  else if c = 'r' then some '\r'
  else if c = 't' then some '\t'
  else none

/-- The character whose code point is written in hexadecimal digits. -/
def codeChar? (digits : List Char) : Option Char := do
  let code ← hexValue? digits
  if code.isValidChar then some (Char.ofNat code) else none

/-- Reads a basic string after its opening quote. -/
def basicText (chars : Array Char) : List Char → Option (String × List Char)
  | [] => none
  | '"' :: rest => some (String.ofList chars.toList, rest)
  | '\\' :: 'u' :: a :: b :: c :: d :: rest =>
    match codeChar? [a, b, c, d] with
    | some code => basicText (chars.push code) rest
    | none => none
  | '\\' :: 'U' :: a :: b :: c :: d :: e :: f :: g :: h :: rest =>
    match codeChar? [a, b, c, d, e, f, g, h] with
    | some code => basicText (chars.push code) rest
    | none => none
  | '\\' :: letter :: rest =>
    match escaped? letter with
    | some c => basicText (chars.push c) rest
    | none => none
  | c :: rest => if isPlain c then basicText (chars.push c) rest else none

def literalText (chars : Array Char) : List Char → Option (String × List Char)
  | [] => none
  | c :: rest =>
    if c = apostrophe then some (String.ofList chars.toList, rest)
    else if isPlain c then literalText (chars.push c) rest
    else none

/-- The text starts with a line break, spaces and tabs aside. -/
def breaksLine (text : List Char) : Bool :=
  match skipSpace text with
  | '\n' :: _ => true
  | '\r' :: '\n' :: _ => true
  | _ => false

/-- Takes up to two more quotes after the three that close a string. -/
def closing (quote : Char) (chars : Array Char) (rest : List Char) : String × List Char :=
  let more := ((rest.take 2).takeWhile (· == quote)).length
  (String.ofList (chars.toList ++ List.replicate more quote), rest.drop more)

/-- Reads a basic string over several lines after its opening quotes.  A backslash
at the end of a line leaves out the line break and all white space after it, which
is what `skipping` says. -/
def basicLines (skipping : Bool) (chars : Array Char) : List Char → Option (String × List Char)
  | [] => none
  | '"' :: '"' :: '"' :: rest => some (closing '"' chars rest)
  | '\\' :: 'u' :: a :: b :: c :: d :: rest =>
    match codeChar? [a, b, c, d] with
    | some code => basicLines false (chars.push code) rest
    | none => none
  | '\\' :: 'U' :: a :: b :: c :: d :: e :: f :: g :: h :: rest =>
    match codeChar? [a, b, c, d, e, f, g, h] with
    | some code => basicLines false (chars.push code) rest
    | none => none
  | '\\' :: letter :: rest =>
    if breaksLine (letter :: rest) then basicLines true chars (letter :: rest)
    else
      match escaped? letter with
      | some c => basicLines false (chars.push c) rest
      | none => none
  | '\r' :: '\n' :: rest =>
    if skipping then basicLines true chars rest else basicLines false (chars.push '\n') rest
  | c :: rest =>
    if skipping && (isSpace c || c == '\n') then basicLines true chars rest
    else if isPlain c || c == '\n' then basicLines false (chars.push c) rest
    else none

def literalLines (chars : Array Char) : List Char → Option (String × List Char)
  | [] => none
  | '\r' :: '\n' :: rest => literalLines (chars.push '\n') rest
  | c :: rest =>
    if c = apostrophe ∧ rest.take 2 = [apostrophe, apostrophe] then
      some (closing apostrophe chars (rest.drop 2))
    else if isPlain c ∨ c = '\n' then literalLines (chars.push c) rest
    else none

/-- Leaves out a line break right after the opening quotes. -/
def skipBreak : List Char → List Char
  | '\n' :: rest => rest
  | '\r' :: '\n' :: rest => rest
  | text => text

def string? : List Char → Option (String × List Char)
  | '"' :: '"' :: '"' :: rest => basicLines false #[] (skipBreak rest)
  | '"' :: rest => basicText #[] rest
  | c :: rest =>
    if c = apostrophe then
      if rest.take 2 = [apostrophe, apostrophe] then literalLines #[] (skipBreak (rest.drop 2))
      else literalText #[] rest
    else none
  | [] => none

def isBare (c : Char) : Bool :=
  isDigit c || ('a' ≤ c && c ≤ 'z') || ('A' ≤ c && c ≤ 'Z') || c == '-' || c == '_'

def keyPart? : List Char → Option (String × List Char)
  | '"' :: rest => basicText #[] rest
  | c :: rest =>
    if c = apostrophe then literalText #[] rest
    else if isBare c then
      some (String.ofList ((c :: rest).takeWhile isBare), (c :: rest).dropWhile isBare)
    else none
  | [] => none

/-- Reads a key of at most `parts` parts with points between them and skips the
spaces around it. -/
def keyParts? : (parts : Nat) → List Char → Option (List String × List Char)
  | 0, _ => none
  | parts + 1, text => do
    let (key, rest) ← keyPart? (skipSpace text)
    match skipSpace rest with
    | '.' :: rest => (keyParts? parts rest).map fun (keys, rest) => (key :: keys, rest)
    | rest => some ([key], rest)

/-- The greatest depth of values and number of parts of a key. -/
def maxDepth : Nat := 79

def key? (text : List Char) : Option (List String × List Char) := keyParts? maxDepth text

end IncludeGraph.Toml
