import Mathlib.Tactic.SplitIfs
import IncludeGraph.Binary64.Decimal
import IncludeGraph.Proofs.Json.Number

/-!
# Decimal text as a literal

The decimal text of every binary64 number is a number literal, with an exponent and without
one.  What has to be known of the digits is that they do not start with a zero: zero lies in
the rounding interval of no other number.
-/

namespace IncludeGraph.Binary64

open Json

/-! ## The two layouts -/

section Layouts

variable {sign : List Char} {digits : String}

theorem toList_zeros (count : Nat) : (zeros count).toList = List.replicate count '0' := by
  rw [zeros, String.toList_ofList]

theorem isDigit_of_mem_replicate_zero {count : Nat} {c : Char}
    (hc : c ∈ List.replicate count '0') : Text.isDigit c = true := by
  rw [List.eq_of_mem_replicate hc]
  decide

theorem isDigits_append {left right : List Char} (hne : left ++ right ≠ [])
    (hleft : ∀ c ∈ left, Text.isDigit c = true) (hright : ∀ c ∈ right, Text.isDigit c = true) :
    IsDigits (left ++ right) where
  ne_nil := hne
  isDigit c hc := (List.mem_append.mp hc).elim (hleft c) (hright c)

theorem isWhole_take {text : List Char} (h : IsDigits text) (hzero : text.head? ≠ some '0')
    {count : Nat} (hpos : 0 < count) : IsWhole (text.take count) := by
  refine .digits ⟨?_, fun c hc => h.isDigit c (List.mem_of_mem_take hc)⟩ ?_
  · rw [Ne, List.take_eq_nil_iff]
    exact fun hnil => hnil.elim (Nat.ne_of_gt hpos) h.ne_nil
  · rwa [List.head?_take, if_neg (Nat.ne_of_gt hpos)]

theorem isDigits_drop {text : List Char} (h : IsDigits text) {count : Nat}
    (hlt : count < text.length) : IsDigits (text.drop count) where
  ne_nil hnil := Nat.not_le_of_lt hlt (List.drop_eq_nil_iff.mp hnil)
  isDigit c hc := h.isDigit c (List.mem_of_mem_drop hc)

theorem isNumber_positional (hsign : sign = [] ∨ sign = ['-']) (h : IsDigits digits.toList)
    (hzero : digits.toList.head? ≠ some '0') (exponent : Int) :
    IsNumber (sign ++ (positional digits exponent).toList) := by
  unfold positional
  extract_lets point chars
  split_ifs with hpoint hexponent
  · have hfraction : IsDigits (List.replicate (-point).toNat '0' ++ digits.toList) :=
      isDigits_append (List.append_ne_nil_of_right_ne_nil _ h.ne_nil)
        (fun _ => isDigit_of_mem_replicate_zero) h.isDigit
    simpa [toList_zeros] using IsNumber.mk hsign .zero (.point hfraction) .none
  · have hwhole : IsDigits (digits.toList ++ List.replicate exponent.toNat '0') :=
      isDigits_append (List.append_ne_nil_of_left_ne_nil h.ne_nil _) h.isDigit
        fun _ => isDigit_of_mem_replicate_zero
    have hstart : (digits.toList ++ List.replicate exponent.toNat '0').head? ≠ some '0' := by
      rwa [List.head?_append_of_ne_nil _ h.ne_nil]
    have hfraction : IsFraction ['.', '0'] := .point (isDigits_singleton rfl)
    simpa [toList_zeros] using IsNumber.mk hsign (.digits hwhole hstart) hfraction .none
  · have hpos : 0 < point.toNat := by omega
    have hlt : point.toNat < digits.toList.length := by
      rw [String.length_toList]
      omega
    have hfraction := IsFraction.point (isDigits_drop h hlt)
    simpa using IsNumber.mk hsign (isWhole_take h hzero hpos) hfraction .none

theorem isNumber_scientific (hsign : sign = [] ∨ sign = ['-']) (h : IsDigits digits.toList)
    (hzero : digits.toList.head? ≠ some '0') (exponent : Int) :
    IsNumber (sign ++ (scientific digits exponent).toList) := by
  unfold scientific
  extract_lets power chars fraction powerSign
  have hwhole : IsWhole (chars.take 1) := isWhole_take h hzero (by decide)
  have hfraction : IsFraction fraction.toList := by
    by_cases hsmall : chars.length ≤ 1
    · simpa [fraction, hsmall] using IsFraction.none
    · have hdrop := IsFraction.point (isDigits_drop h (Nat.lt_of_not_le hsmall))
      simpa [fraction, hsmall] using hdrop
  have hpower : powerSign.toList = ['+'] ∨ powerSign.toList = ['-'] := by
    by_cases hneg : power < 0
    · simp [powerSign, hneg]
    · simp [powerSign, hneg]
  have hexponent : IsExponent ('e' :: powerSign.toList ++ (toString power.natAbs).toList) := by
    rw [toList_toString]
    exact .power (.inl rfl) (.inr hpower) (isDigits_toDigits _)
  simpa using IsNumber.mk hsign hwhole hfraction hexponent

end Layouts

/-! ## The digits -/

/-- The rounding interval of a number other than zero lies above zero. -/
theorem roundingInterval_pos {x : Binary64} (hx : x.isZero = false) :
    0 < x.roundingInterval.1 := by
  have hsignificand : 0 < x.significand := Nat.pos_of_ne_zero (by simpa [isZero] using hx)
  have hgap : 0 < Nat.pow 2 x.scale := Nat.pow_pos (by decide)
  have hunits : Nat.pow 2 x.scale ≤ x.units := Nat.le_mul_of_pos_left _ hsignificand
  unfold roundingInterval
  extract_lets value gap below
  have hbelow : below ≤ 2 * gap := by
    unfold below
    split_ifs <;> omega
  show 0 < value - below
  omega

theorem readsBack_zero {x : Binary64} (hx : x.isZero = false) (exponent : Int) :
    x.readsBack 0 exponent = false := by
  have hpos := roundingInterval_pos hx
  unfold readsBack
  extract_lets interval quarters num den
  have hnum : num = 0 := by simp [num]
  have hden : 0 < den := by
    unfold den
    split_ifs
    · exact Nat.one_pos
    · exact Nat.pow_pos (by decide)
  have hlow : 0 < interval.1 * den := Nat.mul_pos hpos hden
  have hbelow : ¬ interval.1 * den ≤ num := by omega
  split_ifs
  · simp [hbelow]
  · simp [hnum]

theorem readsBack_nearer {x : Binary64} {exponent : Int} {below above : Nat}
    (hbelow : x.readsBack below exponent = true) (habove : x.readsBack above exponent = true) :
    x.readsBack (x.nearer exponent below above) exponent = true := by
  unfold nearer
  extract_lets scaleUp scaleDown middle twice
  split_ifs
  · exact hbelow
  · exact habove

/-- The digits that are found read back. -/
theorem readsBack_of_shortestWith {x : Binary64} {size : Int} {count : Nat} {d : Decimal}
    (h : x.shortestWith size count = some d) : x.readsBack d.digits d.exponent = true := by
  unfold shortestWith at h
  extract_lets exponent at h
  dsimp only at h
  split at h <;> simp only [Option.some.injEq, reduceCtorEq] at h <;> subst h <;>
    rename_i hbelow habove
  · dsimp only
    exact readsBack_nearer hbelow habove
  · exact hbelow
  · exact habove

theorem digits_shortest {x : Binary64} (hx : x.isZero = false) :
    x.shortest = ⟨0, 0⟩ ∨ x.shortest.digits ≠ 0 := by
  unfold shortest
  extract_lets size hit
  cases hhit : hit with
  | none => exact .inl rfl
  | some d =>
      obtain ⟨count, _, hd⟩ := List.exists_of_findSome?_eq_some hhit
      have hread := readsBack_of_shortestWith hd
      right
      intro hzero
      rw [Option.getD_some] at hzero
      rw [hzero, readsBack_zero hx] at hread
      cases hread

theorem digits_trim {d : Decimal} (hd : d = ⟨0, 0⟩ ∨ d.digits ≠ 0) (count : Nat) :
    Decimal.trim d count = ⟨0, 0⟩ ∨ (Decimal.trim d count).digits ≠ 0 := by
  induction count generalizing d with
  | zero => exact hd
  | succ count ih =>
      unfold Decimal.trim
      split_ifs with hten
      · have hquotient : d.digits / 10 ≠ 0 := by omega
        exact ih (.inr hquotient)
      · exact hd

/-- The decimal text of a number is a literal. -/
theorem isNumber_text (x : Binary64) : IsNumber x.text.toList := by
  have hpoint : IsFraction ['.', '0'] := .point (isDigits_singleton rfl)
  unfold text
  extract_lets sign decimal digits power
  have hsign : sign.toList = [] ∨ sign.toList = ['-'] := by
    unfold sign
    cases x.negative
    · exact .inl rfl
    · exact .inr rfl
  by_cases hx : x.isZero = true
  · rw [if_pos hx]
    simpa using IsNumber.mk hsign .zero hpoint .none
  rw [if_neg hx, String.toList_append]
  have hdecimal : decimal = ⟨0, 0⟩ ∨ decimal.digits ≠ 0 :=
    digits_trim (digits_shortest (Bool.eq_false_iff.mpr hx)) 20
  rcases hdecimal with hzero | hne
  · have hlayout : isPositional power = true ∧ positional digits decimal.exponent = "0.0" := by
      simp only [power, digits, hzero]
      decide
    rw [if_pos hlayout.1, hlayout.2]
    simpa using IsNumber.mk hsign .zero hpoint .none
  · have hdigits : IsDigits digits.toList := by
      rw [toList_toString]
      exact isDigits_toDigits _
    have hstart : digits.toList.head? ≠ some '0' := by
      rw [toList_toString]
      exact head?_toDigits_ne_zero hne
    split_ifs
    · exact isNumber_positional hsign hdigits hstart _
    · exact isNumber_scientific hsign hdigits hstart _

end IncludeGraph.Binary64
