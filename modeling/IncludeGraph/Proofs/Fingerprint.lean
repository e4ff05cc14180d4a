import IncludeGraph.Proofs.Invariance

/-!
# What a fingerprint tells apart

The digest is taken of a stream in which every name ends with a line end, the two ends of
an include are separated by a zero character, and a record separator stands between the
names and the includes.  Where no name holds a line end or a zero character, only graphs
with the same files and the same includes have the same stream.  A file whose name holds a
line end reads like two files, and a zero character in a name hides where one end of an
include stops.
-/

namespace IncludeGraph

variable {units others : List SourceUnit}

namespace FileGraph

variable {g g' : FileGraph}

/-- The bytes whose digest is the fingerprint. -/
def stream (g : FileGraph) : ByteArray :=
  (signature (Text.sortDistinct g.names.toList)
    (Text.sortDistinctPairs (edgeNames g.names g.links))).toUTF8

theorem fingerprint_eq_hexDigest_stream (hbuild : build units = .ok g) :
    g.fingerprint = "blake3:" ++ Blake3.hexDigest g.stream :=
  fingerprint_of_build hbuild

/-! ## Reading the stream back -/

/-- The name holds neither the line end nor the zero character that separate names. -/
def IsPlain (name : String) : Prop :=
  '\n' ∉ name.toList ∧ '\x00' ∉ name.toList
deriving Decidable

def nameLines (names : List String) : List Char :=
  names.flatMap fun name => name.toList ++ ['\n']

def pairLines (pairs : List (String × String)) : List Char :=
  pairs.flatMap fun pair => pair.1.toList ++ '\x00' :: (pair.2.toList ++ ['\n'])

theorem toList_signature (names : List String) (pairs : List (String × String)) :
    (signature names pairs).toList = nameLines names ++ '\x1e' :: pairLines pairs := by
  simp [signature, nameLines, pairLines, String.toList_join, List.flatMap_map]

theorem nameLines_cons (name : String) (names : List String) (rest : List Char) :
    nameLines (name :: names) ++ rest = name.toList ++ '\n' :: (nameLines names ++ rest) := by
  simp [nameLines]

theorem pairLines_cons (pair : String × String) (pairs : List (String × String)) :
    pairLines (pair :: pairs) =
      pair.1.toList ++ '\x00' :: (pair.2.toList ++ '\n' :: pairLines pairs) := by
  simp [pairLines]

/-- The lines of plain pairs determine the pairs. -/
theorem pairLines_injective {pairs pairs' : List (String × String)}
    (hpairs : ∀ pair ∈ pairs, IsPlain pair.1 ∧ IsPlain pair.2)
    (hpairs' : ∀ pair ∈ pairs', IsPlain pair.1 ∧ IsPlain pair.2)
    (heq : pairLines pairs = pairLines pairs') : pairs = pairs' := by
  induction pairs generalizing pairs' with
  | nil =>
      cases pairs' with
      | nil => rfl
      | cons pair' pairs' => simp [pairLines] at heq
  | cons pair pairs ih =>
      cases pairs' with
      | nil => simp [pairLines] at heq
      | cons pair' pairs' =>
          obtain ⟨hpair, hrest⟩ := List.forall_mem_cons.mp hpairs
          obtain ⟨hpair', hrest'⟩ := List.forall_mem_cons.mp hpairs'
          rw [pairLines_cons, pairLines_cons] at heq
          obtain ⟨hsource, htail⟩ := append_cons_inj hpair.1.2 hpair'.1.2 heq
          obtain ⟨htarget, hlines⟩ := append_cons_inj hpair.2.1 hpair'.2.1 htail
          rw [ih hrest hrest' hlines,
            Prod.ext (String.toList_injective hsource) (String.toList_injective htarget)]

/-- After the record separator no line reads like a name: either there is none or the first
one holds a zero character. -/
theorem separator_ne_nameLine {pairs : List (String × String)} {name : String}
    (hpairs : ∀ pair ∈ pairs, IsPlain pair.1 ∧ IsPlain pair.2) (hname : IsPlain name)
    (rest : List Char) : '\x1e' :: pairLines pairs ≠ name.toList ++ '\n' :: rest := by
  intro heq
  cases pairs with
  | nil =>
      have hmem : '\n' ∈ '\x1e' :: pairLines [] := heq ▸ by simp
      simp [pairLines] at hmem
  | cons pair pairs =>
      obtain ⟨hsource, htarget⟩ := hpairs pair List.mem_cons_self
      have hline : '\x1e' :: pairLines (pair :: pairs) =
          ('\x1e' :: pair.1.toList ++ '\x00' :: pair.2.toList) ++ '\n' :: pairLines pairs := by
        simp [pairLines_cons]
      have hfree : '\n' ∉ '\x1e' :: pair.1.toList ++ '\x00' :: pair.2.toList := by
        simp [hsource.1, htarget.1]
      have hsame := (append_cons_inj hfree hname.1 (hline.symm.trans heq)).1
      exact hname.2 (hsame ▸ by simp)

/-- The stream of plain names and pairs determines them. -/
theorem signature_injective {names names' : List String} {pairs pairs' : List (String × String)}
    (hnames : ∀ name ∈ names, IsPlain name) (hnames' : ∀ name ∈ names', IsPlain name)
    (hpairs : ∀ pair ∈ pairs, IsPlain pair.1 ∧ IsPlain pair.2)
    (hpairs' : ∀ pair ∈ pairs', IsPlain pair.1 ∧ IsPlain pair.2)
    (heq : signature names pairs = signature names' pairs') :
    names = names' ∧ pairs = pairs' := by
  have hlines := congrArg String.toList heq
  rw [toList_signature, toList_signature] at hlines
  clear heq
  induction names generalizing names' with
  | nil =>
      cases names' with
      | nil => exact ⟨rfl, pairLines_injective hpairs hpairs' (List.cons.inj hlines).2⟩
      | cons name' names' =>
          rw [nameLines_cons] at hlines
          exact absurd hlines (separator_ne_nameLine hpairs (hnames' name' List.mem_cons_self) _)
  | cons name names ih =>
      obtain ⟨hname, hrest⟩ := List.forall_mem_cons.mp hnames
      rw [nameLines_cons] at hlines
      cases names' with
      | nil => exact absurd hlines.symm (separator_ne_nameLine hpairs' hname _)
      | cons name' names' =>
          obtain ⟨hname', hrest'⟩ := List.forall_mem_cons.mp hnames'
          rw [nameLines_cons] at hlines
          obtain ⟨hfirst, hlines⟩ := append_cons_inj hname.1 hname'.1 hlines
          obtain ⟨hothers, hpairs⟩ := ih hrest hrest' hlines
          exact ⟨by rw [String.toList_injective hfirst, hothers], hpairs⟩

/-! ## Graphs with one stream -/

/-- The stream of a graph is that of any lists of its names and its includes. -/
theorem Represents.stream_eq (h : g.Represents units) (names : List String)
    (pairs : List (String × String)) (hnames : ∀ name, name ∈ names ↔ Known units name)
    (hpairs : ∀ source target, (source, target) ∈ pairs ↔ Includes units source target) :
    g.stream = (signature (Text.sortDistinct names) (Text.sortDistinctPairs pairs)).toUTF8 := by
  have hfiles : ∀ name, name ∈ g.names.toList ↔ name ∈ names := by
    intro name
    rw [h.mem_names_iff, hnames]
  have hedges : ∀ pair, pair ∈ edgeNames g.names g.links ↔ pair ∈ pairs := by
    intro pair
    rw [h.mem_edgeNames, ← hpairs]
  rw [stream, Text.sortDistinct_eq_of_mem_iff hfiles, Text.sortDistinctPairs_eq_of_mem_iff hedges]

/-- The names in the stream are those of the units. -/
theorem Represents.isPlain_names (h : g.Represents units)
    (hunits : ∀ name, Known units name → IsPlain name) :
    ∀ name ∈ Text.sortDistinct g.names.toList, IsPlain name := by
  intro name hname
  exact hunits name (h.mem_names_iff.mp (Text.mem_sortDistinct.mp hname))

/-- Both ends of the includes in the stream are names of units. -/
theorem Represents.isPlain_pairs (h : g.Represents units)
    (hunits : ∀ name, Known units name → IsPlain name) :
    ∀ pair ∈ Text.sortDistinctPairs (edgeNames g.names g.links),
      IsPlain pair.1 ∧ IsPlain pair.2 := by
  intro pair hpair
  have hincludes := h.mem_edgeNames.mp (Text.mem_sortDistinctPairs.mp hpair)
  exact ⟨hunits _ hincludes.known_source, hunits _ (h.known _ _ hincludes)⟩

end FileGraph

open FileGraph

/-- Where no name holds a line end or a zero character, two graphs have the same stream, and
so the same fingerprint for any digest without collisions, exactly if they have the same
files and the same includes. -/
theorem stream_eq_iff_of_isPlain {g g' : FileGraph} (hbuild : build units = .ok g)
    (hbuild' : build others = .ok g') (hunits : ∀ name, Known units name → IsPlain name)
    (hothers : ∀ name, Known others name → IsPlain name) :
    g.stream = g'.stream ↔ SameIncludes units others := by
  have hg := represents_of_build hbuild
  have hg' := represents_of_build hbuild'
  constructor
  · intro heq
    obtain ⟨hnames, hpairs⟩ := signature_injective (hg.isPlain_names hunits)
      (hg'.isPlain_names hothers) (hg.isPlain_pairs hunits) (hg'.isPlain_pairs hothers)
      (String.toByteArray_inj.mp heq)
    refine ⟨fun name => ?_, fun source target => ?_⟩
    · rw [← hg.mem_names_iff, ← hg'.mem_names_iff, ← Text.mem_sortDistinct, hnames,
        Text.mem_sortDistinct]
    · rw [← hg.mem_edgeNames, ← hg'.mem_edgeNames, ← Text.mem_sortDistinctPairs, hpairs,
        Text.mem_sortDistinctPairs]
  · intro hsame
    refine hg.stream_eq _ _ (fun name => ?_) fun source target => ?_
    · rw [hg'.mem_names_iff, hsame.known_iff]
    · rw [hg'.mem_edgeNames, hsame.includes_iff]

theorem stream_eq_iff_of_isPlain_pairOfHeaders : ∃ g g',
    build pairOfHeaders = .ok g ∧ build pairOfHeadersSplit = .ok g' ∧
      (∀ name, Known pairOfHeaders name → IsPlain name) ∧
      (∀ name, Known pairOfHeadersSplit name → IsPlain name) ∧
      (g.stream = g'.stream ↔ SameIncludes pairOfHeaders pairOfHeadersSplit) := by
  have hplain : ∀ unit ∈ pairOfHeaders ++ pairOfHeadersSplit, IsPlain unit.name := by
    decide
  have hunits : ∀ name, Known pairOfHeaders name → IsPlain name := by
    rintro name ⟨unit, hunit, rfl⟩
    exact hplain unit (List.mem_append_left _ hunit)
  have hothers : ∀ name, Known pairOfHeadersSplit name → IsPlain name := by
    rintro name ⟨unit, hunit, rfl⟩
    exact hplain unit (List.mem_append_right _ hunit)
  obtain ⟨g, hbuild⟩ := exists_build_of_known pairOfHeaders (by decide)
  obtain ⟨g', hbuild'⟩ := exists_build_of_known pairOfHeadersSplit (by decide)
  exact ⟨g, g', hbuild, hbuild', hunits, hothers,
    stream_eq_iff_of_isPlain hbuild hbuild' hunits hothers⟩

/-! ## Names that are not plain -/

/-- One file with a line end in its name has the stream of two files. -/
theorem stream_eq_of_line_end {a b : String} (hlt : a < b) {g g' : FileGraph}
    (hbuild : build [⟨a ++ "\n" ++ b, []⟩] = .ok g) (hbuild' : build [⟨a, []⟩, ⟨b, []⟩] = .ok g') :
    g.stream = g'.stream := by
  have hjoined : Text.sortDistinct [a ++ "\n" ++ b] = [a ++ "\n" ++ b] :=
    Text.sortDistinct_eq_self (List.pairwise_singleton _ _)
  have hsplit : Text.sortDistinct [a, b] = [a, b] :=
    Text.sortDistinct_eq_self (List.pairwise_pair.mpr hlt)
  rw [(represents_of_build hbuild).stream_eq [a ++ "\n" ++ b] [],
    (represents_of_build hbuild').stream_eq [a, b] [], hjoined, hsplit]
  · apply congrArg String.toUTF8
    apply String.toList_injective
    simp [toList_signature, nameLines]
  all_goals simp [Known, Includes, eq_comm]

/-- With a zero character in names, one include has the stream of another one between other
files of the same graph. -/
theorem stream_eq_of_zero {a b c : String} {g g' : FileGraph}
    (hbuild : build [⟨a, [b ++ "\x00" ++ c]⟩, ⟨a ++ "\x00" ++ b, []⟩, ⟨c, []⟩,
      ⟨b ++ "\x00" ++ c, []⟩] = .ok g)
    (hbuild' : build [⟨a, []⟩, ⟨a ++ "\x00" ++ b, [c]⟩, ⟨c, []⟩,
      ⟨b ++ "\x00" ++ c, []⟩] = .ok g') : g.stream = g'.stream := by
  have hnames : ∀ name, name ∈ g.names.toList ↔ name ∈ g'.names.toList := by
    intro name
    rw [(represents_of_build hbuild).mem_names_iff, (represents_of_build hbuild').mem_names_iff]
    simp [Known]
  rw [(represents_of_build hbuild).stream_eq g.names.toList [(a, b ++ "\x00" ++ c)],
    (represents_of_build hbuild').stream_eq g.names.toList [(a ++ "\x00" ++ b, c)],
    Text.sortDistinctPairs_singleton, Text.sortDistinctPairs_singleton]
  · apply congrArg String.toUTF8
    apply String.toList_injective
    simp [toList_signature, pairLines]
  · intro name
    rw [hnames, (represents_of_build hbuild').mem_names_iff]
  · simp [Includes, eq_comm]
  · intro name
    rw [(represents_of_build hbuild).mem_names_iff]
  · simp [Includes, eq_comm]

/-- The files `a` and `b` have the fingerprint of the one file with both names on a line. -/
theorem not_injective_stream : ∃ g g',
    build [⟨"a\nb", []⟩] = .ok g ∧ build [⟨"a", []⟩, ⟨"b", []⟩] = .ok g' ∧
      g.stream = g'.stream ∧ g.fingerprint = g'.fingerprint ∧
      ¬ SameIncludes [⟨"a\nb", []⟩] [⟨"a", []⟩, ⟨"b", []⟩] := by
  obtain ⟨g, hbuild⟩ := exists_build_of_known [⟨"a\nb", []⟩] (by decide)
  obtain ⟨g', hbuild'⟩ := exists_build_of_known [⟨"a", []⟩, ⟨"b", []⟩] (by decide)
  have hstream : g.stream = g'.stream :=
    stream_eq_of_line_end (by decide : "a" < "b") hbuild hbuild'
  refine ⟨g, g', hbuild, hbuild', hstream, ?_, fun hsame => ?_⟩
  · rw [fingerprint_eq_hexDigest_stream hbuild, fingerprint_eq_hexDigest_stream hbuild', hstream]
  · exact absurd ((hsame.known_iff "a").mpr (by decide)) (by decide)

end IncludeGraph
