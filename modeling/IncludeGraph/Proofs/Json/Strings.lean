import Mathlib.Data.List.Forall2
import Mathlib.Tactic.SplitIfs
import IncludeGraph.Json.Parser
import IncludeGraph.Json.Printer

/-!
# String literals

Every character of a string literal is written as one unit, plain or escaped, and the units of
a literal stand for its characters.  A literal can therefore be read from the start of any
text, whatever characters it holds and whatever follows it.
-/

namespace IncludeGraph.Json

open Text

/-! ## One character -/

/-- The unit is read as the character. -/
inductive StandsFor : StringUnit → Char → Prop
  | char (c : Char) : StandsFor (.char c) c
  | code {c : Char} (h : c.toNat < 0x20) : StandsFor (.code c.toNat) c

theorem hexValue?_hexPair : ∀ n < 0x20, hexValue? ('0' :: '0' :: hexPair n) = some n := by
  decide

/-- The letter of an escape stands for the escaped control character. -/
theorem escaped?_of_controlLetter? {c letter : Char} (h : controlLetter? c = some letter) :
    escaped? letter = some c := by
  unfold controlLetter? at h
  split_ifs at h with hback hform hfeed hreturn htab <;> cases h <;> subst c <;> rfl

theorem stringUnits_letter {letter c : Char} (h : escaped? letter = some c)
    (units : Array StringUnit) (text : List Char) :
    stringUnits units ('\\' :: letter :: text) = stringUnits (units.push (.char c)) text := by
  have hletter : letter ≠ 'u' := by
    rintro rfl
    cases h
  rw [stringUnits, h]
  rintro _ _ _ _ _ hu _
  exact hletter hu

theorem stringUnits_code {n : Nat} (hn : n < 0x20) (units : Array StringUnit) (text : List Char) :
    stringUnits units (['\\', 'u', '0', '0'] ++ hexPair n ++ text) =
      stringUnits (units.push (.code n)) text := by
  have hvalue := hexValue?_hexPair n hn
  rw [hexPair] at hvalue ⊢
  simp only [List.cons_append, List.nil_append]
  rw [stringUnits, hvalue]

theorem stringUnits_plain {c : Char} (hquote : c ≠ '"') (hslash : c ≠ '\\')
    (hcontrol : ¬ c.toNat < 0x20) (units : Array StringUnit) (text : List Char) :
    stringUnits units (c :: text) = stringUnits (units.push (.char c)) text := by
  rw [stringUnits, if_neg hcontrol]
  all_goals simp_all

/-- A character is written as a unit that stands for it. -/
theorem exists_unit (c : Char) : ∃ unit, StandsFor unit c ∧ ∀ units text,
    stringUnits units (escapeChar c ++ text) = stringUnits (units.push unit) text := by
  unfold escapeChar
  split_ifs with hquote hslash hcontrol
  · subst hquote
    exact ⟨.char '"', .char _, stringUnits_letter rfl⟩
  · subst hslash
    exact ⟨.char '\\', .char _, stringUnits_letter rfl⟩
  · cases hletter : controlLetter? c with
    | some letter =>
        exact ⟨.char c, .char c, stringUnits_letter (escaped?_of_controlLetter? hletter)⟩
    | none => exact ⟨.code c.toNat, .code hcontrol, stringUnits_code hcontrol⟩
  · exact ⟨.char c, .char c, stringUnits_plain hquote hslash hcontrol⟩

/-! ## A whole literal -/

/-- The units of a text are read up to the closing quote. -/
theorem exists_stringUnits (text rest : List Char) (units : Array StringUnit) :
    ∃ more, List.Forall₂ StandsFor more text ∧
      stringUnits units (text.flatMap escapeChar ++ '"' :: rest) =
        some (units ++ more.toArray, rest) := by
  induction text generalizing units with
  | nil => exact ⟨[], .nil, by rw [List.flatMap_nil, List.nil_append, stringUnits]; simp⟩
  | cons c text ih =>
      obtain ⟨unit, hunit, hstep⟩ := exists_unit c
      obtain ⟨more, hmore, hrest⟩ := ih (units.push unit)
      refine ⟨unit :: more, .cons hunit hmore, ?_⟩
      rw [List.flatMap_cons, List.append_assoc, hstep, hrest]
      simp

/-- A control character that is written by its code is no half of a surrogate pair. -/
theorem unitsText_code {n : Nat} (hn : n < 0x20) (text : Array Char) (units : List StringUnit) :
    unitsText text (.code n :: units) = unitsText (text.push (Char.ofNat n)) units := by
  have hhigh : ¬ (0xd800 ≤ n ∧ n < 0xdc00) := by omega
  have hlow : ¬ (0xdc00 ≤ n ∧ n < 0xe000) := by omega
  have hhalf : ¬ (0xd800 ≤ n ∧ n < 0xe000) := by omega
  cases units with
  | nil => simp only [unitsText, if_neg hhalf]
  | cons unit units =>
      cases unit with
      | char c => simp only [unitsText, if_neg hhalf]
      | code low =>
          conv_lhs => rw [unitsText, if_neg hhigh, if_neg hlow]

theorem unitsText_of_standsFor {units : List StringUnit} {text : List Char}
    (h : List.Forall₂ StandsFor units text) (before : Array Char) :
    unitsText before units = some (before ++ text.toArray) := by
  induction h generalizing before with
  | nil => rw [unitsText]; simp
  | cons hunit _ ih =>
      cases hunit with
      | char c => rw [unitsText, ih]; simp
      | code hcontrol => rw [unitsText_code hcontrol, ih, Char.ofNat_toNat]; simp

theorem literal_none : literal none = ['"', '\\', 'u', 'd', '8', '0', '0', '"'] := rfl

theorem literal_some (text : String) :
    literal (some text) = '"' :: text.toList.flatMap escapeChar ++ ['"'] := rfl

/-- A literal is read from the start of any text. -/
theorem exists_literal_append (text : Option String) (rest : List Char) :
    ∃ body, literal text ++ rest = '"' :: body ∧ parseString body = some (text, rest) := by
  cases text with
  | none =>
      refine ⟨'\\' :: 'u' :: 'd' :: '8' :: '0' :: '0' :: '"' :: rest, ?_, ?_⟩
      · rw [literal_none]
        rfl
      · have hcode : hexValue? ['d', '8', '0', '0'] = some 0xd800 := by decide
        rw [parseString, stringUnits, hcode]
        simp [stringUnits, unitsText]
  | some text =>
      refine ⟨text.toList.flatMap escapeChar ++ '"' :: rest, by simp [literal_some], ?_⟩
      obtain ⟨units, hunits, hread⟩ := exists_stringUnits text.toList rest #[]
      rw [parseString, hread]
      simp [unitsText_of_standsFor hunits]

end IncludeGraph.Json
