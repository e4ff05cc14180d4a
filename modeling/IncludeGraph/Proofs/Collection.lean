import IncludeGraph.Collection
import IncludeGraph.Proofs.Analysis

/-!
# Collections are closed

The includes of a collected unit are names of headers that were collected as well, so
that a collection names nothing that it lacks.  An analysis of collected files therefore
has a report, and a tree can be analyzed as soon as it can be walked.
-/

namespace IncludeGraph

/-- The names in the include directives of a file, as far as the file can be read. -/
def FoundFile.targets (file : FoundFile) : List String :=
  match file.content with
  | some content => (Text.lines (Utf8.decode content.toList)).filterMap IncludeDirective.target?
  | none => []

namespace Collection

variable {config : CollectConfig} {files : List FoundFile} {name : String}

theorem includes_unitOf (headers : Std.HashSet String) (file : FoundFile) :
    (unitOf headers file).includes = file.targets.filter headers.contains := by
  unfold unitOf FoundFile.targets
  cases file.content with
  | some content => rfl
  | none => rfl

/-- What a unit includes are the names in directives, as far as they are names of headers. -/
theorem mem_includes_unitOf {headers : Std.HashSet String} {file : FoundFile} :
    name ∈ (unitOf headers file).includes ↔ name ∈ file.targets ∧ name ∈ headers := by
  rw [includes_unitOf, List.mem_filter, Std.HashSet.mem_iff_contains]

theorem mem_headers : name ∈ headers config files ↔
    ∃ header ∈ files, header.hasExtension config.isHeaderExtension = true ∧ header.name = name := by
  rw [headers, Std.HashSet.mem_ofList, List.contains_iff_mem, List.mem_map]
  simp only [List.mem_filter, and_assoc]

/-- Every file becomes the unit of its name. -/
theorem map_name_units (config : CollectConfig) (files : List FoundFile) :
    (units config files).map (·.name) = files.map (·.name) := by
  rw [units, List.map_map]
  rfl

theorem known_units : Known (units config files) name ↔ ∃ file ∈ files, file.name = name := by
  rw [Known, ← List.mem_map, map_name_units, List.mem_map]

/-- Whatever the bytes of a file are, its unit includes headers only. -/
theorem exists_header_of_mem_includes {unit : SourceUnit} (hunit : unit ∈ units config files)
    (hname : name ∈ unit.includes) :
    ∃ header ∈ files, header.hasExtension config.isHeaderExtension = true ∧ header.name = name := by
  obtain ⟨file, _, rfl⟩ := List.mem_map.mp hunit
  exact mem_headers.mp (mem_includes_unitOf.mp hname).2

theorem known_of_mem_includes {unit : SourceUnit} (hunit : unit ∈ units config files)
    (hname : name ∈ unit.includes) : Known (units config files) name := by
  obtain ⟨header, hheader, _, hname⟩ := exists_header_of_mem_includes hunit hname
  exact known_units.mpr ⟨header, hheader, hname⟩

theorem exists_analyze (config : CollectConfig) (files : List FoundFile)
    (policy : SelfLoopPolicy) : ∃ report, analyze (units config files) policy = .ok report :=
  exists_analyze_of_known _ policy fun _ hunit _ hname => known_of_mem_includes hunit hname

end Collection

/-- Analyzing a tree ends like the walk of the tree. -/
theorem analyzeTree_eq (tree : FileTree) (root : String) (config : Config) :
    (∃ files report, discover tree root config.collect = .ok files ∧
        analyze (Collection.units config.collect files) config.selfLoops = .ok report ∧
        analyzeTree tree root config = .ok report) ∨
      ∃ cause, discover tree root config.collect = .error cause ∧
        analyzeTree tree root config = .error (.discovery cause) := by
  cases hdiscover : discover tree root config.collect with
  | error cause =>
      refine .inr ⟨cause, rfl, ?_⟩
      rw [analyzeTree, collect, hdiscover]
      rfl
  | ok files =>
      obtain ⟨report, hreport⟩ := Collection.exists_analyze config.collect files config.selfLoops
      refine .inl ⟨files, report, rfl, hreport, ?_⟩
      rw [analyzeTree, collect, hdiscover]
      change (analyze (Collection.units config.collect files) config.selfLoops).mapError _ = _
      rw [hreport]
      rfl

/-- Every file is collected, and every include of a collected unit is the name of a collected
unit, namely of a header, so that collected units have a report.  A tree has a report exactly
if it can be walked, and otherwise the error is that of the walk. -/
theorem collection_closed :
    (∀ config files, (Collection.units config files).map (·.name) = files.map (·.name)) ∧
      (∀ config files, ∀ unit ∈ Collection.units config files, ∀ name ∈ unit.includes,
        Known (Collection.units config files) name ∧
          ∃ header ∈ files, header.hasExtension config.isHeaderExtension = true ∧
            header.name = name) ∧
      (∀ config files policy,
        ∃ report, analyze (Collection.units config files) policy = .ok report) ∧
      (∀ tree root config, (∃ report, analyzeTree tree root config = .ok report) ↔
        ∃ files, discover tree root config.collect = .ok files) ∧
      ∀ tree root config error, analyzeTree tree root config = .error error ↔
        ∃ cause, discover tree root config.collect = .error cause ∧ error = .discovery cause := by
  refine ⟨Collection.map_name_units, fun config files unit hunit name hname => ?_,
    Collection.exists_analyze, fun tree root config => ?_, fun tree root config error => ?_⟩
  · exact ⟨Collection.known_of_mem_includes hunit hname,
      Collection.exists_header_of_mem_includes hunit hname⟩
  · rcases analyzeTree_eq tree root config with
      ⟨files, report, hdiscover, _, htree⟩ | ⟨cause, hdiscover, htree⟩
    · exact iff_of_true ⟨report, htree⟩ ⟨files, hdiscover⟩
    · simp [hdiscover, htree]
  · rcases analyzeTree_eq tree root config with
      ⟨files, report, hdiscover, _, htree⟩ | ⟨cause, hdiscover, htree⟩
    · simp [hdiscover, htree]
    · rw [hdiscover, htree]
      constructor
      · rintro herror
        exact ⟨cause, rfl, (Except.error.inj herror).symm⟩
      · rintro ⟨other, hother, rfl⟩
        rw [Except.error.inj hother]

/-- A file with a byte that is not UTF-8 on the line before its directive. -/
def foundSource : FoundFile :=
  ⟨["src"], "main.c", some (⟨#[0xff, 0x0a]⟩ ++ "#include \"a.h\"\n".toUTF8)⟩

def foundHeader : FoundFile := ⟨["include"], "a.h", some "#include <stdio.h>\n".toUTF8⟩

/-- The header is an include of the unit of the file, and it has a unit itself. -/
theorem collection_closed_foundSource :
    ∃ unit ∈ Collection.units .default [foundSource, foundHeader], "a.h" ∈ unit.includes ∧
      Known (Collection.units .default [foundSource, foundHeader]) "a.h" := by
  let headers := Collection.headers .default [foundSource, foundHeader]
  have hheader : "a.h" ∈ headers :=
    Collection.mem_headers.mpr ⟨foundHeader, by simp, by decide, rfl⟩
  have hunit : Collection.unitOf headers foundSource ∈
      Collection.units .default [foundSource, foundHeader] := List.mem_cons_self
  have hinclude : "a.h" ∈ (Collection.unitOf headers foundSource).includes :=
    Collection.mem_includes_unitOf.mpr ⟨by decide +kernel, hheader⟩
  exact ⟨_, hunit, hinclude, (collection_closed.2.1 _ _ _ hunit _ hinclude).1⟩

end IncludeGraph
