import Mathlib.Data.List.Basic
import IncludeGraph.Json.Number

/-!
# Number literals

`IsNumber` is the grammar of number literals.  The reader takes a literal from the start of
any text that does not continue it, and the digits of a count are a literal that is read as
the count.
-/

namespace IncludeGraph.Json

open Text

/-! ## Digits -/

/-- One or more decimal digits. -/
structure IsDigits (text : List Char) : Prop where
  ne_nil : text ≠ []
  isDigit : ∀ c ∈ text, isDigit c = true

theorem isDigits_singleton {c : Char} (hc : isDigit c = true) : IsDigits [c] where
  ne_nil := List.cons_ne_nil c []
  isDigit := List.forall_mem_singleton.mpr hc

theorem isDigits_toDigits (n : Nat) : IsDigits (Nat.toDigits 10 n) where
  ne_nil := Nat.toDigits_ne_nil
  isDigit _ hc := Nat.isDigit_of_mem_toDigits (by decide) (by decide) hc

theorem digitsValue_toDigits (n : Nat) : digitsValue (Nat.toDigits 10 n) = n :=
  Nat.ofDigitChars_ten_toDigits

theorem digitChar_ne_zero : ∀ d < 10, d ≠ 0 → Nat.digitChar d ≠ '0' := by
  decide

/-- The digits of a number do not start with a zero, unless the number is zero. -/
theorem head?_toDigits_ne_zero {n : Nat} (hn : n ≠ 0) : (Nat.toDigits 10 n).head? ≠ some '0' := by
  induction n using Nat.strongRecOn with
  | ind n ih =>
      by_cases hsmall : n < 10
      · rw [Nat.toDigits_of_lt_base hsmall, List.head?_cons]
        exact mt Option.some.inj (digitChar_ne_zero n hsmall hn)
      · rw [Nat.toDigits_of_base_le (by decide) (Nat.le_of_not_lt hsmall),
          List.head?_append_of_ne_nil _ Nat.toDigits_ne_nil]
        exact ih (n / 10) (by omega) (by omega)

/-- The text does not start with a character of a kind. -/
def StartsWithout (kind : Char → Prop) (text : List Char) : Prop :=
  ∀ c ∈ text.head?, ¬ kind c

theorem digits_append {text rest : List Char} (htext : ∀ c ∈ text, isDigit c = true)
    (hrest : StartsWithout (isDigit · = true) rest) : digits (text ++ rest) = (text, rest) := by
  have hstop : rest.takeWhile isDigit = [] ∧ rest.dropWhile isDigit = rest := by
    cases rest with
    | nil => exact ⟨rfl, rfl⟩
    | cons c rest => simp [hrest c rfl]
  rw [digits, List.takeWhile_append_of_pos htext, List.dropWhile_append_of_pos htext, hstop.1,
    hstop.2, List.append_nil]

/-! ## The grammar -/

/-- A zero, or digits that do not start with one. -/
inductive IsWhole : List Char → Prop
  | zero : IsWhole ['0']
  | digits {text : List Char} (h : IsDigits text) (hzero : text.head? ≠ some '0') : IsWhole text

/-- A point and digits, or nothing. -/
inductive IsFraction : List Char → Prop
  | none : IsFraction []
  | point {text : List Char} (h : IsDigits text) : IsFraction ('.' :: text)

/-- The letter of an exponent, perhaps a sign, and digits, or nothing. -/
inductive IsExponent : List Char → Prop
  | none : IsExponent []
  | power {letter : Char} {sign text : List Char} (hletter : letter = 'e' ∨ letter = 'E')
      (hsign : sign = [] ∨ sign = ['+'] ∨ sign = ['-']) (h : IsDigits text) :
      IsExponent (letter :: sign ++ text)

/-- The grammar of number literals. -/
inductive IsNumber : List Char → Prop
  | mk {sign whole fraction exponent : List Char} (hsign : sign = [] ∨ sign = ['-'])
      (hwhole : IsWhole whole) (hfraction : IsFraction fraction)
      (hexponent : IsExponent exponent) : IsNumber (sign ++ whole ++ fraction ++ exponent)

/-- The characters that can continue a literal. -/
def Continues (c : Char) : Prop := isDigit c = true ∨ c = '.' ∨ c = 'e' ∨ c = 'E'

/-! ## Reading a literal -/

theorem IsWhole.isDigits {text : List Char} (h : IsWhole text) : IsDigits text := by
  cases h with
  | zero => exact isDigits_singleton rfl
  | digits h _ => exact h

theorem wholePart_append {whole rest : List Char} (h : IsWhole whole)
    (hrest : StartsWithout (isDigit · = true) rest) :
    wholePart (whole ++ rest) = some (whole, rest) := by
  cases h with
  | zero =>
      have hnext : (rest.head?.map isDigit).getD false = false := by
        cases rest with
        | nil => rfl
        | cons c rest => simpa using hrest c rfl
      simp [wholePart, hnext]
  | digits h hzero =>
      obtain ⟨c, text, rfl⟩ := List.exists_cons_of_ne_nil h.ne_nil
      have hc : c ≠ '0' := fun heq => hzero (congrArg some heq)
      rw [wholePart, digits_append h.isDigit hrest]
      · simp
      · rintro _ heq
        exact hc (List.cons.inj heq).1

theorem fractionPart_append {fraction rest : List Char} (h : IsFraction fraction)
    (hrest : StartsWithout (fun c => isDigit c = true ∨ c = '.') rest) :
    fractionPart (fraction ++ rest) = some (fraction, rest) := by
  cases h with
  | none =>
      rw [List.nil_append, fractionPart]
      rintro text rfl
      exact hrest '.' rfl (.inr rfl)
  | point h =>
      have hdigits := digits_append h.isDigit fun c hc hdigit => hrest c hc (.inl hdigit)
      rw [List.cons_append, fractionPart, hdigits]
      simp [h.ne_nil]

theorem signPart_append {sign text : List Char} (hsign : sign = [] ∨ sign = ['+'] ∨ sign = ['-'])
    (h : IsDigits text) (rest : List Char) :
    signPart (sign ++ text ++ rest) = (sign, text ++ rest) := by
  obtain ⟨c, text, rfl⟩ := List.exists_cons_of_ne_nil h.ne_nil
  have hdigit := h.isDigit c List.mem_cons_self
  rcases hsign with rfl | rfl | rfl
  · rw [List.nil_append, List.cons_append, signPart]
    · rintro _ heq
      rw [(List.cons.inj heq).1] at hdigit
      exact absurd hdigit (by decide)
    · rintro _ heq
      rw [(List.cons.inj heq).1] at hdigit
      exact absurd hdigit (by decide)
  · rfl
  · rfl

theorem exponentPart_append {exponent rest : List Char} (h : IsExponent exponent)
    (hrest : StartsWithout Continues rest) :
    exponentPart (exponent ++ rest) = some (exponent, rest) := by
  cases h with
  | none =>
      cases rest with
      | nil => rfl
      | cons c rest =>
          have hletter : ¬ (c = 'e' ∨ c = 'E') := fun h => hrest c rfl (.inr (.inr h))
          simp [exponentPart, hletter]
  | @power letter sign text hletter hsign h =>
      have hdigits := digits_append h.isDigit fun c hc hdigit => hrest c hc (.inl hdigit)
      have hsplit := signPart_append hsign h rest
      rw [List.cons_append, List.cons_append, exponentPart, if_pos hletter, hsplit]
      simp [hdigits, h.ne_nil]

/-- What follows the digits before the point does not continue them. -/
theorem startsWithout_fraction_append {fraction rest : List Char} (h : IsFraction fraction)
    (hrest : StartsWithout (isDigit · = true) rest) :
    StartsWithout (isDigit · = true) (fraction ++ rest) := by
  cases h with
  | none => exact hrest
  | point _ =>
      rintro c hc
      cases hc
      decide

/-- What follows a fraction does not continue it. -/
theorem startsWithout_exponent_append {exponent rest : List Char} (h : IsExponent exponent)
    (hrest : StartsWithout (fun c => isDigit c = true ∨ c = '.') rest) :
    StartsWithout (fun c => isDigit c = true ∨ c = '.') (exponent ++ rest) := by
  cases h with
  | none => exact hrest
  | power hletter _ _ =>
      rintro c hc
      cases hc
      rcases hletter with rfl | rfl <;> decide

/-- A literal is read from the start of any text that does not continue it. -/
theorem parseNumber_append {literal rest : List Char} (h : IsNumber literal)
    (hrest : StartsWithout Continues rest) :
    parseNumber (literal ++ rest) = some (String.ofList literal, rest) := by
  obtain ⟨hsign, hwhole, hfraction, hexponent⟩ := h
  rename_i sign whole fraction exponent
  have hafterExponent : StartsWithout (fun c => isDigit c = true ∨ c = '.') rest :=
    fun c hc h => hrest c hc (h.imp id .inl)
  have hafterFraction := startsWithout_exponent_append hexponent hafterExponent
  have hafterWhole := startsWithout_fraction_append hfraction
    fun c hc hdigit => hafterFraction c hc (.inl hdigit)
  have hparts := wholePart_append hwhole hafterWhole
  have hfractionPart := fractionPart_append hfraction hafterFraction
  have hexponentPart := exponentPart_append hexponent hrest
  rcases hsign with rfl | rfl
  · obtain ⟨c, text, rfl⟩ := List.exists_cons_of_ne_nil hwhole.isDigits.ne_nil
    have hminus : c ≠ '-' := by
      rintro rfl
      exact absurd (hwhole.isDigits.isDigit '-' List.mem_cons_self) (by decide)
    simp only [List.append_assoc, List.nil_append, List.cons_append] at hparts ⊢
    rw [parseNumber]
    · simp [hparts, hfractionPart, hexponentPart, String.append_assoc]
    · rintro _ heq
      exact hminus (List.cons.inj heq).1
  · simp only [List.append_assoc, List.cons_append, List.nil_append]
    rw [parseNumber]
    simp [hparts, hfractionPart, hexponentPart]

/-- A literal starts with a minus sign or a digit. -/
theorem IsNumber.exists_cons {literal : List Char} (h : IsNumber literal) :
    ∃ c text, literal = c :: text ∧ (c = '-' ∨ isDigit c = true) := by
  obtain ⟨hsign, hwhole, _, _⟩ := h
  rcases hsign with rfl | rfl
  · obtain ⟨c, text, rfl⟩ := List.exists_cons_of_ne_nil hwhole.isDigits.ne_nil
    exact ⟨c, _, rfl, .inr (hwhole.isDigits.isDigit c List.mem_cons_self)⟩
  · exact ⟨'-', _, rfl, .inl rfl⟩

/-! ## Counts -/

theorem isWhole_toDigits (n : Nat) : IsWhole (Nat.toDigits 10 n) := by
  by_cases hn : n = 0
  · rw [hn]
    exact .zero
  · exact .digits (isDigits_toDigits n) (head?_toDigits_ne_zero hn)

theorem toList_toString (n : Nat) : (toString n).toList = Nat.toDigits 10 n := by
  rw [Nat.toString_eq_ofList_toDigits, String.toList_ofList]

theorem isNumber_toString (n : Nat) : IsNumber (toString n).toList := by
  rw [toList_toString]
  simpa using IsNumber.mk (.inl rfl) (isWhole_toDigits n) .none .none

/-- A count of 64 bits is read back from its digits. -/
theorem count?_toString {n : Nat} (hn : n ≤ maxCount) : count? (toString n) = some n := by
  have hdigits : (Nat.toDigits 10 n).all isDigit = true :=
    List.all_eq_true.mpr (isDigits_toDigits n).isDigit
  rw [count?, toList_toString, digitsValue_toDigits, if_pos ⟨hdigits, hn⟩]

end IncludeGraph.Json
