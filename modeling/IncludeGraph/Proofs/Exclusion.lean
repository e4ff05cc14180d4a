import IncludeGraph.Proofs.Collection

/-!
# Leaving files out

Collecting only some of the files leaves out the units of the others, and from the includes of
each unit that stays the names that no header has any more.  Where files of the same name are kept
or left out together, the graph of the kept files is the subgraph that their names induce in the
graph of all files: nodes and edges stay in their order.
-/

namespace IncludeGraph

/-- The unit with those of its includes that are to be kept, in their order. -/
def SourceUnit.restrict (unit : SourceUnit) (keep : String → Bool) : SourceUnit :=
  { unit with includes := unit.includes.filter keep }

/-- One graph is the subgraph of another that some of its names induce: it has the nodes with
these names and the edges between them, both in the order of the other graph. -/
structure FileGraph.InducedBy (sub g : FileGraph) (keep : String → Bool) : Prop where
  names_eq : sub.names.toList = g.names.toList.filter keep
  edgeNames_eq : edgeNames sub.names sub.links =
    (edgeNames g.names g.links).filter fun pair => keep pair.1 && keep pair.2

namespace Collection

variable {config config' : CollectConfig} {files : List FoundFile} {keep : FoundFile → Bool}

/-- Some header among the files has the name. -/
def NamesHeader (config : CollectConfig) (files : List FoundFile) (name : String) : Prop :=
  ∃ header ∈ files, header.hasExtension config.isHeaderExtension = true ∧ header.name = name

instance (config : CollectConfig) (files : List FoundFile) (name : String) :
    Decidable (NamesHeader config files name) :=
  inferInstanceAs (Decidable (∃ header ∈ files,
    header.hasExtension config.isHeaderExtension = true ∧ header.name = name))

/-- Some file among the files has the name. -/
def NamesFile (files : List FoundFile) (name : String) : Prop := ∃ file ∈ files, file.name = name

instance (files : List FoundFile) (name : String) : Decidable (NamesFile files name) :=
  inferInstanceAs (Decidable (∃ file ∈ files, file.name = name))

/-! ## Units -/

theorem headers_eq (hheaders : config'.headerExtensions = config.headerExtensions)
    (files : List FoundFile) : headers config' files = headers config files := by
  have hextension : config'.isHeaderExtension = config.isHeaderExtension := by
    funext extension
    rw [CollectConfig.isHeaderExtension, CollectConfig.isHeaderExtension, hheaders]
  rw [headers, headers, hextension]

theorem contains_headers (config : CollectConfig) (files : List FoundFile) :
    (headers config files).contains = (NamesHeader config files ·) := by
  funext name
  rw [Bool.eq_iff_iff, ← Std.HashSet.mem_iff_contains, mem_headers, decide_eq_true_iff]
  rfl

/-- The includes of a unit are the names in its directives that name a header. -/
theorem unitOf_headers (config : CollectConfig) (files : List FoundFile) (file : FoundFile) :
    unitOf (headers config files) file =
      ⟨file.name, file.targets.filter (NamesHeader config files ·)⟩ := by
  rw [← contains_headers, ← includes_unitOf]
  rfl

/-- The unit of a file keeps the includes that still name a header. -/
theorem unitOf_headers_filter (config : CollectConfig) (files : List FoundFile)
    (keep : FoundFile → Bool) (file : FoundFile) :
    unitOf (headers config (files.filter keep)) file =
      (unitOf (headers config files) file).restrict
        (NamesHeader config (files.filter keep) ·) := by
  have hall : ∀ name, NamesHeader config (files.filter keep) name →
      NamesHeader config files name := by
    rintro name ⟨header, hheader, hkind⟩
    exact ⟨header, List.mem_of_mem_filter hheader, hkind⟩
  rw [unitOf_headers, unitOf_headers, SourceUnit.restrict, List.filter_filter]
  congr 1
  apply List.filter_congr
  intro name _
  rw [← Bool.decide_and, decide_eq_decide]
  exact ⟨fun hname => ⟨hname, hall name hname⟩, And.left⟩

/-- The units of the kept files. -/
theorem units_filter (hheaders : config'.headerExtensions = config.headerExtensions) :
    units config' (files.filter keep) = (files.filter keep).map fun file =>
      (unitOf (headers config files) file).restrict
        (NamesHeader config (files.filter keep) ·) := by
  rw [units, headers_eq hheaders]
  apply List.map_congr_left
  intro file _
  exact unitOf_headers_filter config files keep file

/-! ## Names and includes -/

theorem flatMap_filter_eq_flatMap {α β : Type} {keep : α → Bool} {f g : α → List β} {xs : List α}
    (hkept : ∀ x ∈ xs, keep x = true → f x = g x)
    (hdropped : ∀ x ∈ xs, ¬ keep x = true → g x = []) :
    (xs.filter keep).flatMap f = xs.flatMap g := by
  induction xs with
  | nil => rfl
  | cons x xs ih =>
      obtain ⟨hx, hxs⟩ := List.forall_mem_cons.mp hkept
      obtain ⟨hx', hxs'⟩ := List.forall_mem_cons.mp hdropped
      by_cases hkeep : keep x = true
      · rw [List.filter_cons_of_pos hkeep, List.flatMap_cons, List.flatMap_cons, hx hkeep,
          ih hxs hxs']
      · rw [List.filter_cons_of_neg hkeep, List.flatMap_cons, hx' hkeep, List.nil_append,
          ih hxs hxs']

section Whole

variable (hwhole : ∀ file ∈ files, ∀ other ∈ files, file.name = other.name → keep file = keep other)
include hwhole

/-- A file is kept exactly if its name is. -/
theorem namesFile_filter_iff {file : FoundFile} (hfile : file ∈ files) :
    NamesFile (files.filter keep) file.name ↔ keep file = true := by
  constructor
  · rintro ⟨other, hother, hname⟩
    obtain ⟨hother, hkept⟩ := List.mem_filter.mp hother
    rw [hwhole file hfile other hother hname.symm, hkept]
  · intro hkept
    exact ⟨file, List.mem_filter.mpr ⟨hfile, hkept⟩, rfl⟩

/-- The name of a header names a header as long as it names a file. -/
theorem namesHeader_filter_iff {name : String} (hname : NamesHeader config files name) :
    NamesHeader config (files.filter keep) name ↔ NamesFile (files.filter keep) name := by
  obtain ⟨header, hheader, hextension, rfl⟩ := hname
  constructor
  · rintro ⟨other, hother, _, hname⟩
    exact ⟨other, hother, hname⟩
  · intro hfile
    have hkept := (namesFile_filter_iff hwhole hheader).mp hfile
    exact ⟨header, List.mem_filter.mpr ⟨hheader, hkept⟩, hextension, rfl⟩

theorem map_name_filter :
    (files.filter keep).map (·.name) =
      (files.map (·.name)).filter (NamesFile (files.filter keep) ·) := by
  rw [List.filter_map]
  congr 1
  apply List.filter_congr
  intro file hfile
  rw [Function.comp_apply, Bool.eq_iff_iff, decide_eq_true_iff, namesFile_filter_iff hwhole hfile]

/-- The includes of the kept units are those that lead from a kept name to another. -/
theorem includePairs_units_filter :
    includePairs (units config (files.filter keep)) =
      (includePairs (units config files)).filter fun pair =>
        NamesFile (files.filter keep) pair.1 && NamesFile (files.filter keep) pair.2 := by
  rw [units_filter rfl, units, includePairs, includePairs, List.flatMap_map, List.flatMap_map,
    List.filter_flatMap]
  apply flatMap_filter_eq_flatMap
  · intro file hfile hkept
    have hsource : NamesFile (files.filter keep) file.name :=
      (namesFile_filter_iff hwhole hfile).mpr hkept
    rw [List.filter_map]
    congr 1
    apply List.filter_congr
    intro target htarget
    have hheader : NamesHeader config files target :=
      mem_headers.mp (mem_includes_unitOf.mp htarget).2
    change decide _ = (decide (NamesFile _ file.name) && decide _)
    rw [decide_eq_true hsource, Bool.true_and, decide_eq_decide]
    exact namesHeader_filter_iff hwhole hheader
  · intro file hfile hdropped
    have hsource : ¬ NamesFile (files.filter keep) file.name :=
      mt (namesFile_filter_iff hwhole hfile).mp hdropped
    apply List.filter_eq_nil_iff.mpr
    intro pair hpair
    obtain ⟨target, _, rfl⟩ := List.mem_map.mp hpair
    change ¬ (decide (NamesFile _ file.name) && decide _) = true
    rw [decide_eq_false hsource, Bool.false_and]
    exact Bool.false_ne_true

end Whole

theorem exists_build (config : CollectConfig) (files : List FoundFile) :
    ∃ g, FileGraph.build (units config files) = .ok g :=
  FileGraph.exists_build_of_known _ fun _ hunit _ hname => known_of_mem_includes hunit hname

/-- The units of the kept files are those of all files without the includes that are no header
among the kept files any more.  If files of the same name are kept or left out together, the graph
of the kept files is the subgraph that their names induce. -/
theorem units_of_kept (hheaders : config'.headerExtensions = config.headerExtensions)
    (files : List FoundFile) (keep : FoundFile → Bool) :
    (units config' (files.filter keep) = (files.filter keep).map fun file =>
      (unitOf (headers config files) file).restrict
        (NamesHeader config (files.filter keep) ·)) ∧
      ((∀ file ∈ files, ∀ other ∈ files, file.name = other.name → keep file = keep other) →
        ∃ g sub, FileGraph.build (units config files) = .ok g ∧
          FileGraph.build (units config' (files.filter keep)) = .ok sub ∧
          sub.InducedBy g (NamesFile (files.filter keep) ·)) := by
  refine ⟨units_filter hheaders, fun hwhole => ?_⟩
  have hunits : units config' (files.filter keep) = units config (files.filter keep) := by
    rw [units, units, headers_eq hheaders]
  obtain ⟨g, hbuild⟩ := exists_build config files
  obtain ⟨sub, hsub⟩ := exists_build config (files.filter keep)
  refine ⟨g, sub, hbuild, hunits ▸ hsub, ?_, ?_⟩
  · rw [FileGraph.names_of_build hbuild, FileGraph.names_of_build hsub, map_name_units,
      map_name_units, map_name_filter hwhole, firstOccurrences_filter]
  · rw [FileGraph.edgeNames_of_build hbuild, FileGraph.edgeNames_of_build hsub,
      includePairs_units_filter hwhole, firstOccurrences_filter]

/-- A source that includes a header of its own project and one of another. -/
def includesVendored : FoundFile :=
  ⟨["src"], "main.c", some "#include \"zlib.h\"\r\n#include \"a.h\"\r\n".toUTF8⟩

/-- The source and the two headers, the second of which is of another project. -/
def withVendored : List FoundFile :=
  [includesVendored, foundHeader, ⟨["third_party"], "zlib.h", some "".toUTF8⟩]

def isOwn (file : FoundFile) : Bool := !file.directories.contains "third_party"

/-- The configuration that leaves out the directory of the other project. -/
def withoutVendored : CollectConfig :=
  { CollectConfig.default with exclude := ["third_party/**"] }

/-- Without the headers of other projects, the source includes that of its own only, and the graph
is the part of the graph that the names of the source and of this header induce. -/
theorem units_of_kept_own :
    units withoutVendored (withVendored.filter isOwn) = [⟨"main.c", ["a.h"]⟩, ⟨"a.h", []⟩] ∧
      ∃ g sub, FileGraph.build (units .default withVendored) = .ok g ∧
        FileGraph.build (units withoutVendored (withVendored.filter isOwn)) = .ok sub ∧
        sub.InducedBy g (NamesFile (withVendored.filter isOwn) ·) := by
  have hheaders : withoutVendored.headerExtensions = CollectConfig.default.headerExtensions := rfl
  have hkept := units_of_kept hheaders withVendored isOwn
  refine ⟨?_, hkept.2 (by decide)⟩
  rw [hkept.1]
  simp only [unitOf_headers, SourceUnit.restrict]
  decide +kernel

end Collection

end IncludeGraph
