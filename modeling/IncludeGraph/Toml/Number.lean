import IncludeGraph.Text.Digit
import IncludeGraph.Toml.Value

/-!
# TOML numbers and dates

Integers have 64 bits and may be written with the digits of four bases.  Numbers
with a fraction or an exponent must not be too large for binary64.  Underscores
may stand between digits.
-/

namespace IncludeGraph.Toml

open Text

/-- Reads digits with single underscores between them. -/
def digitRun (isDigit : Char → Bool) (digits : Array Char) : List Char → List Char × List Char
  | '_' :: c :: rest =>
    if isDigit c ∧ !digits.isEmpty then digitRun isDigit (digits.push c) rest
    else (digits.toList, '_' :: c :: rest)
  | c :: rest =>
    if isDigit c then digitRun isDigit (digits.push c) rest else (digits.toList, c :: rest)
  | [] => (digits.toList, [])

def digitRun? (isDigit : Char → Bool) (text : List Char) : Option (List Char × List Char) :=
  let run := digitRun isDigit #[] text
  if run.1.isEmpty then none else some run

def isWord (value : Int) : Bool := -0x8000000000000000 ≤ value && value ≤ 0x7fffffffffffffff

def based? (base : Nat) (text : List Char) : Option (Toml × List Char) := do
  let (digits, rest) ← digitRun? (fun c => (hexDigit? c).any (· < base)) text
  let value := digits.foldl (fun value c => base * value + (hexDigit? c).getD 0) 0
  if isWord value then some (.integer value, rest) else none

/-- Reads the digits before the point: a zero, or digits that do not start with one. -/
def whole? : List Char → Option (List Char × List Char)
  | '0' :: rest => some (['0'], rest)
  | text => digitRun? isDigit text

def fraction? : List Char → Option (List Char × List Char)
  | '.' :: rest => digitRun? isDigit rest
  | text => some ([], text)

def signOf : List Char → List Char × List Char
  | '+' :: rest => (['+'], rest)
  | '-' :: rest => (['-'], rest)
  | text => ([], text)

def signedValue (sign digits : List Char) : Int :=
  if sign = ['-'] then -(digitsValue digits : Int) else digitsValue digits

def exponent? : List Char → Option (Option Int × List Char)
  | e :: rest =>
    if e = 'e' ∨ e = 'E' then
      let (sign, rest) := signOf rest
      (digitRun? isDigit rest).map fun (digits, rest) => (some (signedValue sign digits), rest)
    else some (none, e :: rest)
  | [] => some (none, [])

/-- The least number that is rounded to infinity. -/
def overflowLimit : Nat := Nat.pow 2 1024 - Nat.pow 2 970

/-- The number `digits * 10 ^ power` is rounded to infinity.  Its decimal places
before the point decide unless there are just as many as in the limit. -/
def overflows (digits : List Char) (power : Int) : Bool :=
  let value := digitsValue digits
  let places := (digits.dropWhile (· == '0')).length + power
  if value = 0 ∨ places < 309 then false
  else if 309 < places then true
  else if power < 0 then overflowLimit * Nat.pow 10 power.natAbs ≤ value
  else overflowLimit ≤ value * Nat.pow 10 power.toNat

def decimal? (sign text : List Char) : Option (Toml × List Char) := do
  let (whole, rest) ← whole? text
  let (fraction, rest) ← fraction? rest
  let (exponent, rest) ← exponent? rest
  if fraction.isEmpty && exponent.isNone then
    let value := signedValue sign whole
    if isWord value then some (.integer value, rest) else none
  else if sign ≠ ['-'] ∧ overflows (whole ++ fraction) (exponent.getD 0 - fraction.length) then none
  else
    let literal := sign ++ text.take (text.length - rest.length)
    some (.float (String.ofList literal), rest)

def number? (text : List Char) : Option (Toml × List Char) :=
  match text with
  | '0' :: 'x' :: rest => based? 16 rest
  | '0' :: 'o' :: rest => based? 8 rest
  | '0' :: 'b' :: rest => based? 2 rest
  | text =>
    let (sign, rest) := signOf text
    match rest with
    | 'i' :: 'n' :: 'f' :: rest => some (.float (String.ofList (sign ++ "inf".toList)), rest)
    | 'n' :: 'a' :: 'n' :: rest => some (.float (String.ofList (sign ++ "nan".toList)), rest)
    | rest => decimal? sign rest

/-- Reads a number of exactly so many digits that lies between two bounds. -/
def ranged? (count low high : Nat) (text : List Char) : Option (Nat × List Char) :=
  let digits := (text.take count).takeWhile isDigit
  let value := digitsValue digits
  if digits.length = count ∧ low ≤ value ∧ value ≤ high then some (value, text.drop count)
  else none

def daysIn (year month : Nat) : Nat :=
  if month = 2 then
    if year % 4 = 0 ∧ (year % 100 ≠ 0 ∨ year % 400 = 0) then 29 else 28
  else if month = 4 ∨ month = 6 ∨ month = 9 ∨ month = 11 then 30
  else 31

def after? (c : Char) (text : List Char) : Option (List Char) := List.isPrefixOf? [c] text

def monthAndDay? (year : Nat) (text : List Char) : Option (List Char) := do
  let (month, rest) ← ranged? 2 1 12 text
  let (_, rest) ← ranged? 2 1 (daysIn year month) (← after? '-' rest)
  return rest

def secondFraction? : List Char → Option (List Char)
  | '.' :: rest => if (rest.takeWhile isDigit).isEmpty then none else some (rest.dropWhile isDigit)
  | text => some text

/-- Reads a time of the day.  A minute may have a leap second. -/
def time? (text : List Char) : Option (List Char) := do
  let (_, rest) ← ranged? 2 0 23 text
  let (_, rest) ← ranged? 2 0 59 (← after? ':' rest)
  let (_, rest) ← ranged? 2 0 60 (← after? ':' rest)
  secondFraction? rest

/-- Reads the distance from universal time, if it is given. -/
def offset? : List Char → Option (List Char)
  | 'Z' :: rest => some rest
  | 'z' :: rest => some rest
  | text =>
    match signOf text with
    | ([], rest) => some rest
    | (_, rest) => do
      let (_, rest) ← ranged? 2 0 23 rest
      let (_, rest) ← ranged? 2 0 59 (← after? ':' rest)
      return rest

def timeAfterDate? (text : List Char) : Option (List Char) :=
  match text with
  | c :: rest =>
    if (c = 'T' ∨ c = 't' ∨ c = ' ') ∧ (rest.head?.any isDigit) then (time? rest).bind offset?
    else some text
  | [] => some []

/-- The text starts with so many digits and then the given character. -/
def startsWithField (count : Nat) (c : Char) (text : List Char) : Bool :=
  ((text.take count).takeWhile isDigit).length == count && (text.drop count).head? == some c

def dateTime? (text : List Char) : Option (Toml × List Char) := do
  let rest ←
    if startsWithField 4 '-' text then
      let rest ← monthAndDay? (digitsValue (text.take 4)) (text.drop 5)
      timeAfterDate? rest
    else time? text
  return (.dateTime (String.ofList (text.take (text.length - rest.length))), rest)

/-- Reads a number, a date or a time. -/
def numeral? (text : List Char) : Option (Toml × List Char) :=
  if startsWithField 4 '-' text || startsWithField 2 ':' text then dateTime? text
  else number? text

end IncludeGraph.Toml
