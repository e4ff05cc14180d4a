/-!
# Binary floating-point numbers

Densities are finite numbers of the IEEE 754 binary64 format.  A value is kept as
exact integers: its magnitude is `significand * 2 ^ scale` units, where one unit
is the smallest positive number `2 ^ -1074`.  Rounding goes to the nearest
number, and to the one with the even significand when two are equally near.
-/

namespace IncludeGraph

/-- Magnitudes have at most 53 significant bits.  The scale is as small as these
bits allow, so each value has one representation for each sign. -/
def Binary64.Canonical (significand scale : Nat) : Prop :=
  significand < Nat.pow 2 53 ∧ scale ≤ 2045 ∧ (Nat.pow 2 52 ≤ significand ∨ scale = 0)

instance (significand scale : Nat) : Decidable (Binary64.Canonical significand scale) :=
  inferInstanceAs (Decidable (_ ∧ _))

/-- A finite binary64 number: `± significand * 2 ^ scale / 2 ^ 1074`. -/
structure Binary64 where
  negative : Bool
  significand : Nat
  scale : Nat
  canonical : Binary64.Canonical significand scale
deriving DecidableEq

namespace Binary64

def zero : Binary64 := ⟨false, 0, 0, by decide⟩

def one : Binary64 := ⟨false, Nat.pow 2 52, 1022, by decide⟩

instance : Inhabited Binary64 := ⟨zero⟩

/-- Number of units in one: the reciprocal of the smallest positive number. -/
def unitsPerOne : Nat := Nat.pow 2 1074

/-- The magnitude as a whole number of units. -/
def units (x : Binary64) : Nat := x.significand * Nat.pow 2 x.scale

def isZero (x : Binary64) : Bool := x.significand == 0

/-- The quotient `num / den` rounded to a whole number; a tie goes to the even one. -/
def roundDiv (num den : Nat) : Nat :=
  let quotient := num / den
  let remainder := num % den
  if den < 2 * remainder ∨ (2 * remainder = den ∧ quotient % 2 = 1) then quotient + 1
  else quotient

/-- The number with the given parts; `none` if the format has no room for it. -/
def ofParts? (negative : Bool) (significand scale : Nat) : Option Binary64 :=
  if h : Canonical significand scale then some ⟨negative, significand, scale, h⟩ else none

/-- Rounds `num / den` units to the nearest number; `none` if that is infinite. -/
def ofUnits? (negative : Bool) (num den : Nat) : Option Binary64 :=
  let whole := num / den
  let scale := if whole = 0 then 0 else whole.log2 - 52
  let significand := roundDiv num (den * Nat.pow 2 scale)
  if significand = Nat.pow 2 53 then ofParts? negative (Nat.pow 2 52) (scale + 1)
  else ofParts? negative significand scale

/-- The number nearest to `num / den`; `none` if that is infinite. -/
def ofRatio? (negative : Bool) (num den : Nat) : Option Binary64 :=
  ofUnits? negative (num * unitsPerOne) den

def ofNat? (n : Nat) : Option Binary64 := ofRatio? false n 1

/-- The nearest number to the ratio of two counts, and zero when there is none. -/
def ratio (num den : Nat) : Binary64 := (ofRatio? false num den).getD zero

def signedUnits (x : Binary64) : Int := if x.negative then -(x.units : Int) else x.units

/-- The rounded difference; `none` if it is infinite.  If nothing is left, it is
positive zero, except for the difference of a negative and a positive zero. -/
def sub? (x y : Binary64) : Option Binary64 :=
  let difference := x.signedUnits - y.signedUnits
  ofUnits? (difference < 0 ∨ (difference = 0 ∧ x.negative ∧ ¬ y.negative)) difference.natAbs 1

def mul? (x y : Binary64) : Option Binary64 :=
  ofUnits? (x.negative != y.negative) (x.units * y.units) unitsPerOne

def div? (x y : Binary64) : Option Binary64 :=
  ofUnits? (x.negative != y.negative) (x.units * unitsPerOne) y.units

def neg (x : Binary64) : Binary64 := { x with negative := !x.negative }

end Binary64

end IncludeGraph
