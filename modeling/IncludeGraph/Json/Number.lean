import IncludeGraph.Binary64.Basic
import IncludeGraph.Json.Parser

/-!
# Reading number literals

A literal is read as a count if it has digits only and fits into 64 bits.  Read as
a binary64 number, its leading digits make up a whole number of at most 64 bits,
which is then multiplied or divided by a power of ten; both steps round.
-/

namespace IncludeGraph.Json

open Text

def maxCount : Nat := 0xffffffffffffffff

/-- A literal of digits only as a number of at most 64 bits. -/
def count? (literal : String) : Option Nat :=
  let digits := literal.toList
  if digits.all isDigit ∧ digitsValue digits ≤ maxCount then some (digitsValue digits) else none

/-- Appends digits to a number as long as it keeps to 64 bits.  The second result
is the number of digits taken. -/
def absorb (value taken : Nat) : List Char → Nat × Nat
  | [] => (value, taken)
  | c :: digits =>
    let next := 10 * value + digitValue c
    if next ≤ maxCount then absorb next (taken + 1) digits else (value, taken)

def powerOfTen (power : Nat) : Binary64 := Binary64.ratio (Nat.pow 10 power) 1

def maxPower : Nat := 308

/-- Divides by the greatest power of ten a number of times, or until nothing is left. -/
def divideRepeatedly (x : Binary64) : (times : Nat) → Option Binary64
  | 0 => some x
  | times + 1 =>
    if x.isZero then some x
    else match x.div? (powerOfTen maxPower) with
      | some x => divideRepeatedly x times
      | none => none

/-- Divides by `10 ^ power`, by at most `10 ^ 308` at a time. -/
def divideByTens (x : Binary64) (power : Nat) : Option Binary64 := do
  let times := (power - 1) / maxPower
  (← divideRepeatedly x times).div? (powerOfTen (power - times * maxPower))

/-- The number `value * 10 ^ power`, rounded after each step. -/
def scaleByTens (value : Nat) (power : Int) : Option Binary64 := do
  let x ← Binary64.ofNat? value
  if power < 0 then divideByTens x power.natAbs
  else if x.isZero then some x
  else if power.toNat ≤ maxPower then x.mul? (powerOfTen power.toNat)
  else none

/-- The signed number after the letter of an exponent; zero if there is none. -/
def exponentValue : List Char → Int
  | [] => 0
  | _ :: '-' :: digits => -(digitsValue digits : Int)
  | _ :: '+' :: digits => digitsValue digits
  | _ :: digits => digitsValue digits

/-- A literal as a binary64 number; `none` if it is out of range. -/
def binary64? (literal : String) : Option Binary64 := do
  let chars := literal.toList
  let negative := chars.head? == some '-'
  let chars := if negative then chars.drop 1 else chars
  let whole := chars.takeWhile isDigit
  let rest := chars.dropWhile isDigit
  let fraction := if rest.head? == some '.' then (rest.drop 1).takeWhile isDigit else []
  let exponent := if rest.head? == some '.' then (rest.drop 1).dropWhile isDigit else rest
  let (value, taken) := absorb 0 0 whole
  let (value, places) := absorb value 0 fraction
  let power := (whole.length - taken : Int) - places + exponentValue exponent
  let x ← scaleByTens value power
  return if negative then x.neg else x

end IncludeGraph.Json
