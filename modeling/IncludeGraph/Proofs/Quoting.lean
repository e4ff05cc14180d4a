import Mathlib.Tactic.SplitIfs
import IncludeGraph.Text.Quoted

/-!
# Reading quoted names back

Every escape is read back as the character that it stands for, and no other character of a
quoted name reads like the start of an escape or like the closing quote.  A quoted name can
therefore be read from the start of any text, whatever characters the name holds and
whatever follows it.
-/

namespace IncludeGraph.Text

/-! ## Hexadecimal digits -/

theorem hexDigit?_digitChar : ∀ d < 16, hexDigit? (Nat.digitChar d) = some d := by
  decide

theorem digitChar_ne_brace : ∀ d < 16, Nat.digitChar d ≠ '\x7d' := by
  decide

theorem readHex_digitChar_cons {d : Nat} (hd : d < 16) (value : Nat) (text : List Char) :
    readHex value (Nat.digitChar d :: text) = readHex (16 * value + d) text := by
  rw [readHex, if_neg (digitChar_ne_brace d hd), hexDigit?_digitChar d hd]

/-- The digits of a number are read as the number. -/
theorem readHex_hexDigits (n : Nat) (text : List Char) :
    readHex 0 (hexDigits n ++ text) = readHex n text := by
  induction n using Nat.strongRecOn generalizing text with
  | ind n ih =>
      by_cases hn : n < 16
      · rw [hexDigits, Nat.toDigits_of_lt_base hn]
        exact (readHex_digitChar_cons hn 0 text).trans (by rw [Nat.mul_zero, Nat.zero_add])
      · have hdigits : hexDigits n = hexDigits (n / 16) ++ [Nat.digitChar (n % 16)] :=
          Nat.toDigits_of_base_le (by decide) (Nat.le_of_not_lt hn)
        calc
          readHex 0 (hexDigits n ++ text)
              = readHex 0 (hexDigits (n / 16) ++ Nat.digitChar (n % 16) :: text) := by
                rw [hdigits, List.append_assoc, List.singleton_append]
          _ = readHex (n / 16) (Nat.digitChar (n % 16) :: text) := ih _ (by omega) _
          _ = readHex (16 * (n / 16) + n % 16) text :=
                readHex_digitChar_cons (Nat.mod_lt n (by decide)) _ _
          _ = readHex n text := by rw [Nat.div_add_mod]

/-! ## One character -/

/-- The letter of an escape stands for the escaped character. -/
theorem namedChar?_of_namedEscape? {c letter : Char} (h : namedEscape? c = some letter) :
    namedChar? letter = some c := by
  unfold namedEscape? at h
  split_ifs at h with hnull htab hreturn hfeed hquote hslash <;> cases h <;> subst c <;> rfl

theorem unquoteRest_namedEscape {c letter : Char} (h : namedChar? letter = some c)
    (text : List Char) : unquoteRest ('\\' :: letter :: text) =
      (unquoteRest text).map fun (name, rest) => (c :: name, rest) := by
  have hletter : letter ≠ 'u' := by
    rintro rfl
    cases h
  rw [unquoteRest, h]
  rintro rest hu _
  exact hletter hu

theorem unquoteRest_codeEscape {c : Char} {text after : List Char}
    (h : readHex 0 text = some (c, after)) : unquoteRest ('\\' :: 'u' :: '\x7b' :: text) =
      (unquoteRest after).map fun (name, rest) => (c :: name, rest) := by
  rw [unquoteRest]
  split
  · next hnone => simp [h] at hnone
  · next hsome =>
      rw [h] at hsome
      cases hsome
      rfl

theorem unquoteRest_plain {c : Char} (hquote : c ≠ '"') (hslash : c ≠ '\\') (text : List Char) :
    unquoteRest (c :: text) = (unquoteRest text).map fun (name, rest) => (c :: name, rest) := by
  rw [unquoteRest]
  all_goals simp_all

/-- A character in its quoted form is read back as that character. -/
theorem unquoteRest_quoteChar (c : Char) (text : List Char) : unquoteRest (quoteChar c ++ text) =
    (unquoteRest text).map fun (name, rest) => (c :: name, rest) := by
  cases hescape : namedEscape? c with
  | some letter =>
      rw [quoteChar, hescape]
      exact unquoteRest_namedEscape (namedChar?_of_namedEscape? hescape) text
  | none =>
      rw [quoteChar, hescape]
      by_cases hvisible : isVisible c
      · simp only [hvisible, if_true]
        refine unquoteRest_plain ?_ ?_ text
        · rintro rfl
          cases hescape
        · rintro rfl
          cases hescape
      · simp only [hvisible, Bool.false_eq_true, if_false]
        have hcode : readHex 0 (hexDigits c.toNat ++ '\x7d' :: text) = some (c, text) := by
          rw [readHex_hexDigits, readHex, if_pos rfl, Char.ofNat_toNat]
        simpa using unquoteRest_codeEscape hcode

/-! ## A whole name -/

theorem unquoteRest_append_quote (name rest : List Char) :
    unquoteRest (name.flatMap quoteChar ++ '"' :: rest) = some (name, rest) := by
  induction name with
  | nil => rw [List.flatMap_nil, List.nil_append, unquoteRest]
  | cons c name ih =>
      rw [List.flatMap_cons, List.append_assoc, unquoteRest_quoteChar, ih, Option.map_some]

/-- A quoted name is read back from the start of any text. -/
theorem unquote_quote_append (name rest : List Char) :
    unquote (quote name ++ rest) = some (name, rest) := by
  rw [quote, List.append_assoc]
  exact unquoteRest_append_quote name rest

/-- The two quotes of a quoted name are its own. -/
theorem two_le_length_quote (name : List Char) : 2 ≤ (quote name).length := by
  simp [quote]

end IncludeGraph.Text
