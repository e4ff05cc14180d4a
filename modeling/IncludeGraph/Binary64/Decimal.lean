import IncludeGraph.Binary64.Basic

/-!
# Decimal text of binary numbers

`shortest` finds the fewest decimal digits that no other binary64 number is nearer
to, and of these digits the ones nearest to the value.  `text` writes them in
positional notation for magnitudes from `0.00001` to below `10 ^ 16`, and with an
exponent otherwise.  `fixed` writes a given number of places.
-/

namespace IncludeGraph

/-- A positive decimal number `digits * 10 ^ exponent`. -/
structure Decimal where
  digits : Nat
  exponent : Int
deriving DecidableEq, Repr

namespace Binary64

/-- The numbers that round to a positive value form an interval.  `(low, high)`
are its ends in quarters of a unit; they belong to it if the significand is even. -/
def roundingInterval (x : Binary64) : Nat × Nat :=
  let value := 4 * x.units
  let gap := Nat.pow 2 x.scale
  let below := if x.significand = Nat.pow 2 52 ∧ x.scale ≠ 0 then gap else 2 * gap
  (value - below, value + 2 * gap)

def decimalLength (n : Nat) : Nat := (Nat.toDigits 10 n).length

/-- The exponent `k` with `10 ^ (k - 1) ≤ num / den < 10 ^ k`; `fuel` bounds the
number of zeros after the decimal point. -/
def magnitude (num den : Nat) : (fuel : Nat) → Int
  | 0 => 0
  | fuel + 1 =>
    if den ≤ num then decimalLength (num / den)
    else magnitude (10 * num) den fuel - 1

/-- The decimal numbers next to a value on the grid of `10 ^ exponent`, as
multiples of the grid: the one at or below it and the one above. -/
def gridNeighbours (num den : Nat) (exponent : Int) : Nat × Nat :=
  let below :=
    if 0 ≤ exponent then num / (den * Nat.pow 10 exponent.toNat)
    else num * Nat.pow 10 (-exponent).toNat / den
  (below, below + 1)

/-- Whether `digits * 10 ^ exponent` rounds to `x`. -/
def readsBack (x : Binary64) (digits : Nat) (exponent : Int) : Bool :=
  let interval := x.roundingInterval
  let quarters := 4 * unitsPerOne
  let num := digits * (if 0 ≤ exponent then Nat.pow 10 exponent.toNat else 1) * quarters
  let den := if 0 ≤ exponent then 1 else Nat.pow 10 (-exponent).toNat
  if x.significand % 2 = 0 then interval.1 * den ≤ num && num ≤ interval.2 * den
  else interval.1 * den < num && num < interval.2 * den

/-- The nearer of two neighbours on a grid; the even one if they are equally near. -/
def nearer (x : Binary64) (exponent : Int) (below above : Nat) : Nat :=
  let scaleUp := if 0 ≤ exponent then Nat.pow 10 exponent.toNat else 1
  let scaleDown := if 0 ≤ exponent then 1 else Nat.pow 10 (-exponent).toNat
  let middle := (below + above) * scaleUp * unitsPerOne
  let twice := 2 * x.units * scaleDown
  if twice < middle ∨ (twice = middle ∧ below % 2 = 0) then below else above

/-- Digits for a positive value on the grid with the given number of digits, if
one of the two neighbours there reads back. -/
def shortestWith (x : Binary64) (magnitude : Int) (count : Nat) : Option Decimal :=
  let exponent := magnitude - count
  let (below, above) := gridNeighbours x.units unitsPerOne exponent
  match x.readsBack below exponent, x.readsBack above exponent with
  | true, true => some ⟨x.nearer exponent below above, exponent⟩
  | true, false => some ⟨below, exponent⟩
  | false, true => some ⟨above, exponent⟩
  | false, false => none

/-- The shortest decimal number that reads back as the magnitude of `x`: the first
hit among one, two, …, seventeen digits. -/
def shortest (x : Binary64) : Decimal :=
  let size := magnitude x.units unitsPerOne 400
  let hit := (List.range 17).findSome? fun i => x.shortestWith size (i + 1)
  hit.getD ⟨0, 0⟩

/-- Digits without trailing zeros, the exponent raised to match. -/
def Decimal.trim (d : Decimal) (zeros : Nat) : Decimal :=
  match zeros with
  | 0 => d
  | zeros + 1 =>
    if d.digits % 10 = 0 ∧ d.digits ≠ 0 then
      Decimal.trim ⟨d.digits / 10, d.exponent + 1⟩ zeros
    else d

def zeros (count : Nat) : String := String.ofList (List.replicate count '0')

/-- Writes `digits * 10 ^ exponent` without an exponent, with a digit on each side
of the point. -/
def positional (digits : String) (exponent : Int) : String :=
  let point := digits.length + exponent
  if point ≤ 0 then "0." ++ zeros (-point).toNat ++ digits
  else if exponent ≥ 0 then digits ++ zeros exponent.toNat ++ ".0"
  else
    let chars := digits.toList
    String.ofList (chars.take point.toNat) ++ "." ++ String.ofList (chars.drop point.toNat)

/-- Writes `digits * 10 ^ exponent` with one digit before the point and a signed
exponent; the point is left out after a single digit. -/
def scientific (digits : String) (exponent : Int) : String :=
  let power := digits.length + exponent - 1
  let chars := digits.toList
  let fraction := if chars.length ≤ 1 then "" else "." ++ String.ofList (chars.drop 1)
  let sign := if power < 0 then "-" else "+"
  String.ofList (chars.take 1) ++ fraction ++ "e" ++ sign ++ toString power.natAbs

/-- Positional notation serves the magnitudes whose first digit stands at
`10 ^ -5` to `10 ^ 15`. -/
def isPositional (power : Int) : Bool := -5 ≤ power && power < 16

/-- The shortest decimal text that reads back, always with a point or an exponent. -/
def text (x : Binary64) : String :=
  let sign := if x.negative then "-" else ""
  if x.isZero then sign ++ "0.0"
  else
    let decimal := Decimal.trim x.shortest 20
    let digits := toString decimal.digits
    let power := digits.length + decimal.exponent - 1
    sign ++ if isPositional power then positional digits decimal.exponent
      else scientific digits decimal.exponent

/-- The value with a fixed number of places; a tie goes to the even last digit. -/
def fixed (x : Binary64) (places : Nat) : String :=
  let scaled := roundDiv (x.units * Nat.pow 10 places) unitsPerOne
  let digits := toString scaled
  let padded := zeros (places + 1 - digits.length) ++ digits
  let point := padded.length - places
  let chars := padded.toList
  (if x.negative then "-" else "") ++ String.ofList (chars.take point) ++ "." ++
    String.ofList (chars.drop point)

end Binary64

end IncludeGraph
