import IncludeGraph.Json.Value

/-!
# JSON text

Values are written over several lines: every item and member on a line of its own,
indented by two spaces for each level, a space after the colon of a member, and
`[]` or a pair of braces for what is empty.  In strings only quotes, backslashes
and control characters are escaped.
-/

namespace IncludeGraph.Json

def controlLetter? (c : Char) : Option Char :=
  if c = '\x08' then some 'b'
  else if c = '\x0c' then some 'f'
  else if c = '\n' then some 'n'
  else if c = '\r' then some 'r'
  else if c = '\t' then some 't'
  else none

def hexPair (n : Nat) : List Char := [Nat.digitChar (n / 16), Nat.digitChar (n % 16)]

/-- The characters that stand for one character of a string. -/
def escapeChar (c : Char) : List Char :=
  if c = '"' then ['\\', '"']
  else if c = '\\' then ['\\', '\\']
  else if c.toNat < 0x20 then
    match controlLetter? c with
    | some letter => ['\\', letter]
    | none => ['\\', 'u', '0', '0'] ++ hexPair c.toNat
  else [c]

/-- A string literal.  What is not a text is written as an escape for half of a
surrogate pair. -/
def literal : Option String → List Char
  | some text => '"' :: text.toList.flatMap escapeChar ++ ['"']
  | none => "\"\\ud800\"".toList

def newline (depth : Nat) : List Char := '\n' :: List.replicate (2 * depth) ' '

def openBrace : Char := '\x7b'
def closeBrace : Char := '\x7d'

mutual

/-- Writes a value that stands at the given depth. -/
def write (depth : Nat) : Json → List Char
  | null => "null".toList
  | bool true => "true".toList
  | bool false => "false".toList
  | number text => text.toList
  | string text => literal text
  | array [] => ['[', ']']
  | array (item :: items) =>
    '[' :: newline (depth + 1) ++ write (depth + 1) item ++ writeItems (depth + 1) items ++
      newline depth ++ [']']
  | object [] => [openBrace, closeBrace]
  | object ((key, value) :: members) =>
    openBrace :: newline (depth + 1) ++ literal key ++ [':', ' '] ++ write (depth + 1) value ++
      writeMembers (depth + 1) members ++ newline depth ++ [closeBrace]

/-- Writes the items after the first one. -/
def writeItems (depth : Nat) : List Json → List Char
  | [] => []
  | item :: items => ',' :: newline depth ++ write depth item ++ writeItems depth items

def writeMembers (depth : Nat) : List (Option String × Json) → List Char
  | [] => []
  | (key, value) :: members =>
    ',' :: newline depth ++ literal key ++ [':', ' '] ++ write depth value ++
      writeMembers depth members

end

def pretty (value : Json) : String := String.ofList (write 0 value)

end IncludeGraph.Json
