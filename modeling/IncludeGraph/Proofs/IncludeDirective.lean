import Mathlib.Data.List.Forall2
import Mathlib.Data.List.TakeWhile
import IncludeGraph.IncludeDirective

/-!
# The form of include directives

`IsDirective` says how a line that is an include directive is put together, without saying how it
is read: from white space, the number sign, the word, white space and a name between quotes.
Reading a line finds a name exactly if the line has this form.  Scanning a text therefore takes
one name from each line that is a directive with the name of a header, in the order of the lines,
and nothing from any other line.  A carriage return at the end of a line belongs to what follows
the name, so that it makes no difference whether it is left out.
-/

namespace IncludeGraph

namespace Text

/-! ## White space and lines -/

def AllBlank (text : List Char) : Prop := ∀ c ∈ text, isBlank c = true

theorem allBlank_takeWhile (text : List Char) : AllBlank (text.takeWhile isBlank) :=
  List.all_eq_true.mp List.all_takeWhile

/-- What is left after white space starts with a character that is none. -/
theorem skipBlank_eq_cons_iff {text rest : List Char} {c : Char} (hc : isBlank c = false) :
    skipBlank text = c :: rest ↔ ∃ blank, AllBlank blank ∧ text = blank ++ c :: rest := by
  constructor
  · intro hskip
    refine ⟨text.takeWhile isBlank, allBlank_takeWhile text, ?_⟩
    calc
      text = text.takeWhile isBlank ++ skipBlank text := List.takeWhile_append_dropWhile.symm
      _ = text.takeWhile isBlank ++ c :: rest := by rw [hskip]
  · rintro ⟨blank, hblank, rfl⟩
    rw [skipBlank, List.dropWhile_append_of_pos hblank]
    exact List.dropWhile_cons_of_neg (by simp [hc])

/-- A word stands in a text after white space. -/
theorem isPrefixOf?_skipBlank_eq_some_iff {word text rest : List Char}
    (hword : ∃ c, word.head? = some c ∧ isBlank c = false) :
    word.isPrefixOf? (skipBlank text) = some rest ↔
      ∃ blank, AllBlank blank ∧ text = blank ++ (word ++ rest) := by
  obtain ⟨c, hhead, hc⟩ := hword
  obtain ⟨tail, rfl⟩ := List.head?_eq_some_iff.mp hhead
  rw [List.isPrefixOf?_eq_some_iff_append_eq, eq_comm]
  exact skipBlank_eq_cons_iff hc

/-- A reader that gets nothing from an empty line and does not see a carriage return at the end
of a line gets the same from the lines as from the pieces between the line feeds. -/
theorem filterMap_splitLines {α β : Type} [BEq α] {feed ret : α} {read : List α → Option β}
    (hnil : read [] = none) (hret : ∀ line, read (dropReturn ret line) = read line)
    (text : List α) :
    (splitLines feed ret text).filterMap read = (text.splitOn feed).filterMap read := by
  obtain hnone | ⟨pieces, last, hpieces⟩ := List.eq_nil_or_concat (text.splitOn feed)
  · exact absurd hnone (List.splitOn_ne_nil feed text)
  · rw [List.concat_eq_append] at hpieces
    have hlast :
        ((some last).filter (!·.isEmpty)).toList.filterMap read = [last].filterMap read := by
      cases last with
      | nil => exact (List.filterMap_cons_none hnil).symm
      | cons x rest => rfl
    have hread : read ∘ dropReturn ret = read := funext hret
    rw [splitLines, hpieces]
    simp only [List.dropLast_concat, List.getLast?_concat, List.filterMap_append,
      List.filterMap_map, hread, hlast]

end Text

namespace IncludeDirective

open Text

/-- The line is an include directive with a name: a number sign and the word `include`, white
space that may stand before and after the sign and has to stand after the word, the name between
quotes, and anything after it. -/
def IsDirective (line : List Char) (name : String) : Prop :=
  ∃ indent gap space rest,
    line = indent ++ ['#'] ++ gap ++ "include".toList ++ space ++ ['"'] ++ name.toList ++ ['"'] ++
        rest ∧
      AllBlank indent ∧ AllBlank gap ∧ AllBlank space ∧ space ≠ [] ∧
      name ≠ "" ∧ '"' ∉ name.toList

/-! ## Reading a line -/

theorem afterBlank?_eq_some_cons_iff {text rest : List Char} {c : Char} (hc : isBlank c = false) :
    afterBlank? text = some (c :: rest) ↔
      ∃ blank, AllBlank blank ∧ blank ≠ [] ∧ text = blank ++ c :: rest := by
  cases text with
  | nil => simp [afterBlank?]
  | cons d text =>
      rw [afterBlank?]
      by_cases hd : isBlank d = true
      · rw [if_pos hd, Option.some.injEq, skipBlank_eq_cons_iff hc]
        constructor
        · rintro ⟨blank, hblank, rfl⟩
          exact ⟨d :: blank, List.forall_mem_cons.mpr ⟨hd, hblank⟩, List.cons_ne_nil d blank, rfl⟩
        · rintro ⟨blank, hblank, hne, heq⟩
          obtain ⟨first, blank, rfl⟩ := List.exists_cons_of_ne_nil hne
          obtain ⟨rfl, rfl⟩ := List.cons.inj heq
          exact ⟨blank, (List.forall_mem_cons.mp hblank).2, rfl⟩
      · rw [if_neg hd]
        constructor
        · intro hnone
          cases hnone
        · rintro ⟨blank, hblank, hne, heq⟩
          obtain ⟨first, blank, rfl⟩ := List.exists_cons_of_ne_nil hne
          obtain ⟨rfl, rfl⟩ := List.cons.inj heq
          exact absurd (hblank _ List.mem_cons_self) hd

theorem ne_quote_of_not_mem {text : List Char} (hquote : '"' ∉ text) :
    ∀ c ∈ text, (c != '"') = true := by
  intro c hc
  exact bne_iff_ne.mpr (ne_of_mem_of_not_mem hc hquote)

theorem quotedName?_append_quote {before after : List Char} (hquote : '"' ∉ before) :
    quotedName? (before ++ '"' :: after) =
      if before = [] then none else some (String.ofList before) := by
  have hbefore : (before ++ '"' :: after).takeWhile (· != '"') = before := by
    rw [List.takeWhile_append_of_pos (ne_quote_of_not_mem hquote),
      List.takeWhile_cons_of_neg (by simp), List.append_nil]
  simp only [quotedName?, hbefore]
  simp

theorem quotedName?_of_not_mem {text : List Char} (hquote : '"' ∉ text) :
    quotedName? text = none := by
  have hall : text.takeWhile (· != '"') = text :=
    List.takeWhile_eq_self_iff.mpr (ne_quote_of_not_mem hquote)
  simp [quotedName?, hall]

/-- A quoted name is what stands before the first quote, unless that is nothing. -/
theorem quotedName?_eq_some_iff {text : List Char} {name : String} :
    quotedName? text = some name ↔
      name ≠ "" ∧ '"' ∉ name.toList ∧ ∃ rest, text = name.toList ++ '"' :: rest := by
  constructor
  · intro hname
    by_cases hquote : '"' ∈ text
    · obtain ⟨before, after, rfl, hbefore⟩ := List.eq_append_cons_of_mem hquote
      rw [quotedName?_append_quote hbefore] at hname
      by_cases hnil : before = []
      · simp [hnil] at hname
      · rw [if_neg hnil] at hname
        obtain rfl := Option.some.inj hname
        exact ⟨by simpa using hnil, by simpa using hbefore, after, by simp⟩
    · rw [quotedName?_of_not_mem hquote] at hname
      cases hname
  · rintro ⟨hne, hquote, rest, rfl⟩
    rw [quotedName?_append_quote hquote, if_neg (by simpa using hne), String.ofList_toList]

/-- Reading a line finds a name exactly if the line is a directive with the name. -/
theorem target?_eq_some_iff {line : List Char} {name : String} :
    target? line = some name ↔ IsDirective line name := by
  have hsign : ∀ text rest, List.isPrefixOf? ['#'] (skipBlank text) = some rest ↔
      ∃ blank, AllBlank blank ∧ text = blank ++ '#' :: rest :=
    fun text rest => isPrefixOf?_skipBlank_eq_some_iff ⟨'#', rfl, by decide⟩
  have hword : ∀ text rest, List.isPrefixOf? "include".toList (skipBlank text) = some rest ↔
      ∃ blank, AllBlank blank ∧ text = blank ++ ("include".toList ++ rest) :=
    fun text rest => isPrefixOf?_skipBlank_eq_some_iff ⟨'i', rfl, by decide⟩
  have hquoted : ∀ text rest : List Char,
      List.isPrefixOf? ['"'] text = some rest ↔ text = '"' :: rest :=
    fun text rest => List.isPrefixOf?_eq_some_iff_append_eq.trans eq_comm
  have hquote : isBlank '"' = false := by decide
  simp only [target?, Option.bind_eq_bind, Option.bind_eq_some_iff, quotedName?_eq_some_iff,
    hsign, hword, hquoted]
  constructor
  · rintro ⟨_, ⟨indent, hindent, rfl⟩, _, ⟨gap, hgap, rfl⟩, _, hafter, _, rfl, hne, hmem, rest, rfl⟩
    obtain ⟨space, hspace, hspaced, rfl⟩ := (afterBlank?_eq_some_cons_iff hquote).mp hafter
    refine ⟨indent, gap, space, rest, ?_, hindent, hgap, hspace, hspaced, hne, hmem⟩
    simp only [List.append_assoc, List.cons_append, List.nil_append]
  · rintro ⟨indent, gap, space, rest, rfl, hindent, hgap, hspace, hspaced, hne, hmem⟩
    let quoted := '"' :: (name.toList ++ '"' :: rest)
    have hafter : afterBlank? (space ++ quoted) = some quoted :=
      (afterBlank?_eq_some_cons_iff hquote).mpr ⟨space, hspace, hspaced, rfl⟩
    refine ⟨gap ++ ("include".toList ++ (space ++ quoted)), ⟨indent, hindent, ?_⟩,
      space ++ quoted, ⟨gap, hgap, rfl⟩, quoted, hafter, _, rfl, hne, hmem, rest, rfl⟩
    simp only [quoted, List.append_assoc, List.cons_append, List.nil_append]

example : (target? "\u2003# include\r\"a.h\" \"b.h\"".toList, target? "#include\"a.h\"".toList) =
    (some "a.h", none) := by decide +kernel

/-- A line is a directive with one name only. -/
theorem IsDirective.unique {line : List Char} {name other : String} (h : IsDirective line name)
    (hother : IsDirective line other) : name = other := by
  rw [← target?_eq_some_iff] at h hother
  exact Option.some.inj (h.symm.trans hother)

/-! ## Line ends -/

theorem isDirective_append_return {line : List Char} {name : String} :
    IsDirective (line ++ ['\r']) name ↔ IsDirective line name := by
  constructor
  · rintro ⟨indent, gap, space, rest, hline, h⟩
    rcases List.eq_nil_or_concat rest with rfl | ⟨rest, last, rfl⟩
    · rw [List.append_nil] at hline
      have hlast : ['\r'] = ['"'] := List.append_inj_right' hline rfl
      exact absurd hlast (by decide)
    · rw [List.concat_eq_append, ← List.append_assoc] at hline
      exact ⟨indent, gap, space, rest, List.append_inj_left' hline rfl, h⟩
  · rintro ⟨indent, gap, space, rest, rfl, h⟩
    exact ⟨indent, gap, space, rest ++ ['\r'], by rw [List.append_assoc], h⟩

theorem target?_append_return (line : List Char) : target? (line ++ ['\r']) = target? line := by
  apply Option.ext
  intro name
  rw [target?_eq_some_iff, target?_eq_some_iff, isDirective_append_return]

theorem target?_dropReturn (line : List Char) : target? (dropReturn '\r' line) = target? line := by
  rw [dropReturn]
  split
  · rename_i hreturn
    have hline : line.dropLast ++ ['\r'] = line :=
      List.dropLast_append_getLast? _ (beq_iff_eq.mp hreturn)
    rw [← target?_append_return, hline]
  · rfl

/-! ## Scanning a text -/

/-- Scanning reads the pieces of a text between its line feeds. -/
theorem scan_eq (headers : Std.HashSet String) (text : List Char) :
    scan headers text = ((text.splitOn '\n').filterMap target?).filter headers.contains := by
  rw [scan, lines, filterMap_splitLines rfl target?_dropReturn]

/-- Scanning a text reads its lines one by one.  A line that is a directive with the name of a
header contributes this name, which is the only one that it has, and every other line contributes
nothing. -/
theorem scan_line_by_line (headers : Std.HashSet String) (text : List Char) :
    (∀ line name other, IsDirective line name → IsDirective line other → name = other) ∧
      ∃ parts : List (Option String),
        List.Forall₂
          (fun line part => ∀ name, part = some name ↔ IsDirective line name ∧ name ∈ headers)
          ((text.splitOn '\n').map (dropReturn '\r')) parts ∧
        scan headers text = parts.reduceOption := by
  refine ⟨fun line name other => IsDirective.unique, ?_⟩
  let part (line : List Char) : Option String := (target? line).filter headers.contains
  refine ⟨((text.splitOn '\n').map (dropReturn '\r')).map part, ?_, ?_⟩
  · rw [List.forall₂_map_right_iff, List.forall₂_same]
    intro line _ name
    rw [Option.filter_eq_some_iff, target?_eq_some_iff, Std.HashSet.mem_iff_contains]
  · calc
      scan headers text = ((text.splitOn '\n').filterMap target?).filter headers.contains :=
        scan_eq headers text
      _ = (text.splitOn '\n').filterMap part := List.filter_filterMap ..
      _ = (((text.splitOn '\n').map (dropReturn '\r')).map part).filterMap id := by
        rw [List.filterMap_map, List.filterMap_map]
        apply List.filterMap_congr
        intro line _
        simp only [Function.comp_apply, id_eq, part, target?_dropReturn]

/-- Two directives with one name and a directive with the name of no header. -/
def repeatedDirectives : List Char :=
  "\u2003#include \"a.h\" // first\r\n#include \"b.h\"\n\t# include\t\"a.h\"".toList

/-- The name of the header is found on either line. -/
theorem scan_line_by_line_repeated :
    scan (.ofList ["a.h"]) repeatedDirectives = ["a.h", "a.h"] := by
  obtain ⟨-, parts, hparts, hscan⟩ := scan_line_by_line (.ofList ["a.h"]) repeatedDirectives
  have hlines : (repeatedDirectives.splitOn '\n').map (dropReturn '\r') =
      ["\u2003#include \"a.h\" // first".toList, "#include \"b.h\"".toList,
        "\t# include\t\"a.h\"".toList] := by
    decide +kernel
  have hheader : "a.h" ∈ Std.HashSet.ofList ["a.h"] := by simp
  have hother : "b.h" ∉ Std.HashSet.ofList ["a.h"] := by simp
  rw [hlines] at hparts
  simp only [List.forall₂_cons_left_iff, List.forall₂_nil_left_iff] at hparts
  obtain ⟨first, _, hfirst, ⟨second, _, hsecond, ⟨third, _, hthird, rfl, rfl⟩, rfl⟩, rfl⟩ := hparts
  have hone : first = some "a.h" :=
    (hfirst "a.h").mpr ⟨target?_eq_some_iff.mp (by decide +kernel), hheader⟩
  have hnone : second = none := by
    apply Option.eq_none_iff_forall_ne_some.mpr
    intro name hname
    obtain ⟨hdirective, hmem⟩ := (hsecond name).mp hname
    have hread : some name = some "b.h" :=
      (target?_eq_some_iff.mpr hdirective).symm.trans (by decide +kernel)
    exact hother (Option.some.inj hread ▸ hmem)
  have htwo : third = some "a.h" :=
    (hthird "a.h").mpr ⟨target?_eq_some_iff.mp (by decide +kernel), hheader⟩
  rw [hscan, hone, hnone, htwo]
  rfl

end IncludeDirective

end IncludeGraph
