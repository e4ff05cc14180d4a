import IncludeGraph.Proofs.IncludeDirective

/-!
# The lines of a file

Bytes that are no UTF-8 stand for replacement characters, and how many of them stand for one may
depend on the bytes around.  This never reaches beyond the end of a line: a line feed continues no
character, so that what stands before it is read as if the file ended there, and what stands after
it as if the file began there.  The directives of a file are therefore those of its lines, one
line after the other, and neither the bytes of a line nor the way in which it ends has an
influence on any other line.
-/

namespace IncludeGraph

namespace Utf8

/-! ## Reading up to an ASCII byte -/

variable {before after : List UInt8} {byte : UInt8}

theorem decodeOnto_append (text other : Array Char) (bytes : List UInt8) :
    decodeOnto (text ++ other) bytes = text ++ decodeOnto other bytes := by
  fun_induction decodeOnto other bytes with
  | case1 other => rw [decodeOnto]
  | case2 other first bytes next ih =>
      rw [decodeOnto, ← Array.append_push]
      exact ih

theorem decode_nil : decode [] = [] := by
  rw [decode, decodeOnto]

theorem decode_cons (first : UInt8) (bytes : List UInt8) :
    decode (first :: bytes) = (readChar first bytes).1 :: decode (readChar first bytes).2 := by
  have hstart : #[(readChar first bytes).1] ++ #[] = #[(readChar first bytes).1] :=
    Array.append_empty
  rw [decode, decodeOnto]
  change (decodeOnto #[(readChar first bytes).1] _).toList = _
  rw [← hstart, decodeOnto_append, Array.toList_append]
  rfl

/-- Before an ASCII byte the bytes of a character end as they do at the end of a file. -/
theorem follow_append {value : Nat} {low high : UInt8} {more : Nat} (hlow : 0x80 ≤ low)
    (hbyte : byte < 0x80) :
    follow value low high more (before ++ byte :: after) =
      ((follow value low high more before).1,
        (follow value low high more before).2 ++ byte :: after) := by
  fun_induction follow value low high more before with
  | case1 => rfl
  | case2 value low high more =>
      have hstop : ¬ (low ≤ byte ∧ byte ≤ high) := by
        intro hbounds
        exact UInt8.not_lt.mpr (UInt8.le_trans hlow hbounds.1) hbyte
      rw [List.nil_append, follow, if_neg hstop]
  | case3 value low high more next bytes hbounds ih =>
      rw [List.cons_append, follow, if_pos hbounds]
      exact ih (by decide)
  | case4 value low high more next bytes hbounds =>
      rw [List.cons_append, follow, if_neg hbounds]

theorem le_low_of_lead? {lead : Lead} (hlead : lead? byte = some lead) : 0x80 ≤ lead.low := by
  rw [lead?] at hlead
  grind

theorem readChar_append (hbyte : byte < 0x80) (first : UInt8) :
    readChar first (before ++ byte :: after) =
      ((readChar first before).1, (readChar first before).2 ++ byte :: after) := by
  rw [readChar, readChar]
  cases hlead : lead? first with
  | none => rfl
  | some lead => simp only [follow_append (le_low_of_lead? hlead) hbyte]

theorem readChar_ascii (hbyte : byte < 0x80) (bytes : List UInt8) :
    readChar byte bytes = (Char.ofNat byte.toNat, bytes) := by
  have hle : byte ≤ 0x7f := by
    rw [UInt8.le_iff_toNat_le]
    exact Nat.le_of_lt_succ (UInt8.lt_iff_toNat_lt.mp hbyte)
  rw [readChar, lead?, if_pos hle]
  rfl

/-- The bytes before and after an ASCII byte are read apart from each other, whatever they are. -/
theorem decode_append_ascii (hbyte : byte < 0x80) (before after : List UInt8) :
    decode (before ++ byte :: after) = decode before ++ Char.ofNat byte.toNat :: decode after := by
  -- A character takes up one byte or more, so the induction is on the number of bytes.
  induction hlength : before.length using Nat.strong_induction_on generalizing before with
  | h n ih =>
    cases before with
    | nil => rw [List.nil_append, decode_cons, readChar_ascii hbyte, decode_nil, List.nil_append]
    | cons first before =>
        have hlt : (readChar first before).2.length < n := by
          have hle := length_readChar_le first before
          rw [List.length_cons] at hlength
          omega
        rw [List.cons_append, decode_cons, decode_cons, readChar_append hbyte, ih _ hlt _ rfl,
          List.cons_append]

end Utf8

namespace IncludeDirective

variable {headers : Std.HashSet String}

/-! ## Texts -/

theorem scan_append_feed (before after : List Char) :
    scan headers (before ++ '\n' :: after) = scan headers before ++ scan headers after := by
  simp only [scan_eq, List.splitOn_append_cons_self, List.filterMap_append, List.filter_append]

/-- A carriage return at the end of a text is at the end of its last line. -/
theorem scan_append_return (text : List Char) :
    scan headers (text ++ ['\r']) = scan headers text := by
  induction hlength : text.length using Nat.strong_induction_on generalizing text with
  | h n ih =>
    by_cases hfeed : '\n' ∈ text
    · obtain ⟨first, rest, rfl, _⟩ := List.eq_append_cons_of_mem hfeed
      have hlt : rest.length < n := by
        rw [← hlength, List.length_append, List.length_cons]
        omega
      calc
        scan headers (first ++ '\n' :: rest ++ ['\r']) =
            scan headers first ++ scan headers (rest ++ ['\r']) := by
          rw [List.append_assoc, List.cons_append, scan_append_feed]
        _ = scan headers first ++ scan headers rest := by rw [ih _ hlt rest rfl]
        _ = scan headers (first ++ '\n' :: rest) := (scan_append_feed first rest).symm
    · have hreturn : '\n' ∉ text ++ ['\r'] := by simpa using hfeed
      rw [scan_eq, scan_eq, List.splitOn_eq_singleton hfeed, List.splitOn_eq_singleton hreturn]
      simp only [List.filterMap_cons, target?_append_return]

/-! ## Files -/

/-- The two ways in which a line of a file ends. -/
inductive LineEnd where
  | feed
  | returnFeed

/-- The bytes at the end of a line. -/
def LineEnd.bytes : LineEnd → List UInt8
  | feed => [0x0a]
  | returnFeed => [0x0d, 0x0a]

/-- The bytes of lines, each with its end. -/
def joinLines (lines : List (List UInt8 × LineEnd)) : List UInt8 :=
  lines.flatMap fun (line, lineEnd) => line ++ lineEnd.bytes

theorem scanBytes_append_feed (before after : List UInt8) :
    scanBytes headers (before ++ 0x0a :: after) =
      scanBytes headers before ++ scanBytes headers after := by
  rw [scanBytes, Utf8.decode_append_ascii (by decide)]
  exact scan_append_feed (Utf8.decode before) (Utf8.decode after)

theorem scanBytes_append_return (bytes : List UInt8) :
    scanBytes headers (bytes ++ [0x0d]) = scanBytes headers bytes := by
  rw [scanBytes, Utf8.decode_append_ascii (by decide), Utf8.decode_nil]
  exact scan_append_return (Utf8.decode bytes)

/-- The end of a line separates the directives before it from those after it. -/
theorem scanBytes_append_lineEnd (before after : List UInt8) (lineEnd : LineEnd) :
    scanBytes headers (before ++ lineEnd.bytes ++ after) =
      scanBytes headers before ++ scanBytes headers after := by
  cases lineEnd with
  | feed =>
      rw [List.append_assoc]
      exact scanBytes_append_feed before after
  | returnFeed =>
      calc
        scanBytes headers (before ++ [0x0d, 0x0a] ++ after) =
            scanBytes headers (before ++ [0x0d] ++ 0x0a :: after) := by
          rw [List.append_assoc, List.append_assoc]
          rfl
        _ = scanBytes headers (before ++ [0x0d]) ++ scanBytes headers after :=
          scanBytes_append_feed (before ++ [0x0d]) after
        _ = scanBytes headers before ++ scanBytes headers after := by
          rw [scanBytes_append_return]

theorem scanBytes_joinLines_append (lines : List (List UInt8 × LineEnd)) (last : List UInt8) :
    scanBytes headers (joinLines lines ++ last) =
      lines.flatMap (fun line => scanBytes headers line.1) ++ scanBytes headers last := by
  induction lines with
  | nil => rfl
  | cons line lines ih =>
      calc
        scanBytes headers (joinLines (line :: lines) ++ last) =
            scanBytes headers (line.1 ++ line.2.bytes ++ (joinLines lines ++ last)) := by
          rw [joinLines, List.flatMap_cons, ← List.append_assoc]
          rfl
        _ = scanBytes headers line.1 ++ scanBytes headers (joinLines lines ++ last) :=
          scanBytes_append_lineEnd line.1 _ line.2
        _ = (line :: lines).flatMap (fun line => scanBytes headers line.1) ++
            scanBytes headers last := by
          rw [ih, List.flatMap_cons, List.append_assoc]

/-- The directives in the bytes before and after the end of a line are found apart from each
other, whether the line ends with a line feed or with a carriage return and a line feed.  Those of
a file are therefore the directives of its lines, each line taken as a file of its own. -/
theorem scanBytes_line_by_line (headers : Std.HashSet String) :
    (∀ before after, scanBytes headers (before ++ 0x0a :: after) =
        scanBytes headers before ++ scanBytes headers after) ∧
      (∀ before after, scanBytes headers (before ++ 0x0d :: 0x0a :: after) =
        scanBytes headers before ++ scanBytes headers after) ∧
      ∀ lines last, scanBytes headers (joinLines lines ++ last) =
        lines.flatMap (fun line => scanBytes headers line.1) ++ scanBytes headers last := by
  refine ⟨scanBytes_append_feed, fun before after => ?_, scanBytes_joinLines_append⟩
  calc
    scanBytes headers (before ++ 0x0d :: 0x0a :: after) =
        scanBytes headers (before ++ LineEnd.returnFeed.bytes ++ after) := by
      rw [List.append_assoc]
      rfl
    _ = scanBytes headers before ++ scanBytes headers after :=
      scanBytes_append_lineEnd before after .returnFeed

end IncludeDirective

end IncludeGraph
