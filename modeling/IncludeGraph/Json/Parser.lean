import IncludeGraph.Json.Value
import IncludeGraph.Text.Digit

/-!
# Reading JSON text

`parse` reads one value with white space around it.  It accepts exactly the JSON
grammar: no trailing commas, no comments, no leading zeros, no raw control
characters in strings.
-/

namespace IncludeGraph.Json

open Text

def isSpace (c : Char) : Bool := c = ' ' || c = '\n' || c = '\t' || c = '\r'

def skipSpace (text : List Char) : List Char := text.dropWhile isSpace

def escaped? (c : Char) : Option Char :=
  if c = '"' then some '"'
  else if c = '\\' then some '\\'
  else if c = '/' then some '/'
  else if c = 'b' then some '\x08'
  else if c = 'f' then some '\x0c'
  else if c = 'n' then some '\n'
  else if c = 'r' then some '\r'
  else if c = 't' then some '\t'
  else none

/-- A unit of a string literal: a character, or a sixteen-bit number that an escape
names. -/
inductive StringUnit where
  | char (c : Char)
  | code (value : Nat)

def stringUnits (units : Array StringUnit) : List Char → Option (Array StringUnit × List Char)
  | [] => none
  | '"' :: rest => some (units, rest)
  | '\\' :: 'u' :: a :: b :: c :: d :: rest =>
    match hexValue? [a, b, c, d] with
    | some value => stringUnits (units.push (.code value)) rest
    | none => none
  | '\\' :: letter :: rest =>
    match escaped? letter with
    | some c => stringUnits (units.push (.char c)) rest
    | none => none
  | c :: rest => if c.toNat < 0x20 then none else stringUnits (units.push (.char c)) rest

def pairChar (high low : Nat) : Char :=
  Char.ofNat (0x10000 + (high - 0xd800) * 0x400 + (low - 0xdc00))

/-- The text that units stand for; `none` if half of a surrogate pair stands alone. -/
def unitsText (text : Array Char) : List StringUnit → Option (Array Char)
  | [] => some text
  | .char c :: units => unitsText (text.push c) units
  | .code high :: .code low :: units =>
    if 0xd800 ≤ high ∧ high < 0xdc00 then
      if 0xdc00 ≤ low ∧ low < 0xe000 then unitsText (text.push (pairChar high low)) units
      else none
    else if 0xdc00 ≤ high ∧ high < 0xe000 then none
    else unitsText (text.push (Char.ofNat high)) (.code low :: units)
  | .code value :: units =>
    if 0xd800 ≤ value ∧ value < 0xe000 then none
    else unitsText (text.push (Char.ofNat value)) units

def parseString (text : List Char) : Option (Option String × List Char) :=
  (stringUnits #[] text).map fun (units, rest) =>
    ((unitsText #[] units.toList).map fun chars => String.ofList chars.toList, rest)

def digits (text : List Char) : List Char × List Char :=
  (text.takeWhile isDigit, text.dropWhile isDigit)

/-- Reads the digits before the point: a zero, or digits that do not start with one. -/
def wholePart : List Char → Option (List Char × List Char)
  | '0' :: rest => if (rest.head?.map isDigit).getD false then none else some (['0'], rest)
  | text => if (digits text).1.isEmpty then none else some (digits text)

def fractionPart : List Char → Option (List Char × List Char)
  | '.' :: rest =>
    if (digits rest).1.isEmpty then none else some ('.' :: (digits rest).1, (digits rest).2)
  | text => some ([], text)

def signPart : List Char → List Char × List Char
  | '+' :: rest => (['+'], rest)
  | '-' :: rest => (['-'], rest)
  | text => ([], text)

def exponentPart : List Char → Option (List Char × List Char)
  | e :: rest =>
    if e = 'e' ∨ e = 'E' then
      let (sign, rest) := signPart rest
      if (digits rest).1.isEmpty then none else some (e :: sign ++ (digits rest).1, (digits rest).2)
    else some ([], e :: rest)
  | [] => some ([], [])

def parseNumber (text : List Char) : Option (String × List Char) := do
  let (sign, text) := match text with
    | '-' :: rest => (['-'], rest)
    | text => ([], text)
  let (whole, text) ← wholePart text
  let (fraction, text) ← fractionPart text
  let (exponent, text) ← exponentPart text
  return (String.ofList (sign ++ whole ++ fraction ++ exponent), text)

def parseWord (word : List Char) (value : Json) (text : List Char) : Option (Json × List Char) :=
  if word.isPrefixOf text then some (value, text.drop word.length) else none

mutual

/-- Reads a value from the start of a text; `fuel` bounds its depth and length. -/
def parseValue : (fuel : Nat) → List Char → Option (Json × List Char)
  | 0, _ => none
  | fuel + 1, text =>
    match skipSpace text with
    | [] => none
    | '"' :: rest => (parseString rest).map fun (text, rest) => (string text, rest)
    | '[' :: rest =>
      match skipSpace rest with
      | ']' :: rest => some (array [], rest)
      | rest => parseItems fuel #[] rest
    | c :: rest =>
      if c = '\x7b' then
        match skipSpace rest with
        | '\x7d' :: rest => some (object [], rest)
        | rest => parseMembers fuel #[] rest
      else if c = 't' then parseWord "true".toList (bool true) (c :: rest)
      else if c = 'f' then parseWord "false".toList (bool false) (c :: rest)
      else if c = 'n' then parseWord "null".toList null (c :: rest)
      else (parseNumber (c :: rest)).map fun (text, rest) => (number text, rest)

def parseItems : (fuel : Nat) → Array Json → List Char → Option (Json × List Char)
  | 0, _, _ => none
  | fuel + 1, items, text =>
    match parseValue fuel text with
    | none => none
    | some (item, rest) =>
      match skipSpace rest with
      | ',' :: rest => parseItems fuel (items.push item) rest
      | ']' :: rest => some (array (items.push item).toList, rest)
      | _ => none

def parseMembers : (fuel : Nat) → Array (Option String × Json) → List Char →
    Option (Json × List Char)
  | 0, _, _ => none
  | fuel + 1, members, text =>
    match skipSpace text with
    | '"' :: rest =>
      match parseString rest with
      | none => none
      | some (key, rest) =>
        match skipSpace rest with
        | ':' :: rest =>
          match parseValue fuel rest with
          | none => none
          | some (value, rest) =>
            match skipSpace rest with
            | ',' :: rest => parseMembers fuel (members.push (key, value)) rest
            | '\x7d' :: rest => some (object (members.push (key, value)).toList, rest)
            | _ => none
        | _ => none
    | _ => none

end

/-- Reads a text that holds one value and nothing else. -/
def parse (text : String) : Option Json :=
  match parseValue (2 * text.length + 2) text.toList with
  | some (value, rest) => if (skipSpace rest).isEmpty then some value else none
  | none => none

end IncludeGraph.Json
