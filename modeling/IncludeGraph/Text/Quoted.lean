import IncludeGraph.Text.Digit
import IncludeGraph.Text.Visible

/-!
# Quoted names

A name is quoted by putting it between double quotes.  Quotes, backslashes and
the usual control characters get a backslash escape, every other character that
does not show is written as `\u{…}` with its code point in hexadecimal, and all
others stand for themselves.  `unquote` reads a quoted name back.
-/

namespace IncludeGraph.Text

/-- The characters with an escape of their own and the letters of their escapes. -/
def namedEscape? (c : Char) : Option Char :=
  if c = '\x00' then some '0'
  else if c = '\t' then some 't'
  else if c = '\r' then some 'r'
  else if c = '\n' then some 'n'
  else if c = '"' then some '"'
  else if c = '\\' then some '\\'
  else none

def namedChar? (c : Char) : Option Char :=
  if c = '0' then some '\x00'
  else if c = 't' then some '\t'
  else if c = 'r' then some '\r'
  else if c = 'n' then some '\n'
  else if c = '"' then some '"'
  else if c = '\\' then some '\\'
  else none

def hexDigits (n : Nat) : List Char := Nat.toDigits 16 n

def quoteChar (c : Char) : List Char :=
  match namedEscape? c with
  | some letter => ['\\', letter]
  | none =>
    if isVisible c then [c]
    else ['\\', 'u', '\x7b'] ++ hexDigits c.toNat ++ ['\x7d']

def quote (name : List Char) : List Char :=
  '"' :: name.flatMap quoteChar ++ ['"']

/-- Reads hexadecimal digits up to a closing brace. -/
def readHex (value : Nat) : List Char → Option (Char × List Char)
  | [] => none
  | c :: rest =>
    if c = '\x7d' then some (Char.ofNat value, rest)
    else match hexDigit? c with
      | some digit => readHex (16 * value + digit) rest
      | none => none

/-- What follows the digits of an escape is a shorter text. -/
theorem readHex_length {value : Nat} {text : List Char} {c : Char} {rest : List Char}
    (h : readHex value text = some (c, rest)) : rest.length < text.length := by
  induction text generalizing value with
  | nil => simp [readHex] at h
  | cons d text ih =>
    rw [readHex] at h
    split at h
    · simp only [Option.some.injEq, Prod.mk.injEq] at h
      simp [h.2]
    · split at h
      · have := ih h
        simp only [List.length_cons]
        omega
      · simp at h

/-- Reads the rest of a quoted name after its opening quote, up to and including
the closing one. -/
def unquoteRest (text : List Char) : Option (List Char × List Char) :=
  match text with
  | [] => none
  | '"' :: rest => some ([], rest)
  | '\\' :: 'u' :: '\x7b' :: rest =>
    match h : readHex 0 rest with
    | none => none
    | some (c, after) =>
      have := readHex_length h
      (unquoteRest after).map fun (name, rest) => (c :: name, rest)
  | '\\' :: letter :: rest =>
    match namedChar? letter with
    | none => none
    | some c => (unquoteRest rest).map fun (name, rest) => (c :: name, rest)
  | c :: rest => (unquoteRest rest).map fun (name, rest) => (c :: name, rest)
termination_by text.length

def unquote : List Char → Option (List Char × List Char)
  | '"' :: rest => unquoteRest rest
  | _ => none

end IncludeGraph.Text
