import IncludeGraph.Proofs.Analysis
import IncludeGraph.Proofs.Construction
import IncludeGraph.Proofs.Order

/-!
# Dependencies and dependents

The names that a graph lists as the dependencies of a file are those that the file
includes, and its dependents are those that include it.  Both lists are strictly sorted,
so that the includes of the units determine them.
-/

namespace IncludeGraph

/-- A listing has one entry for every file, in order: the file with the sorted list of the
names in a relation to it. -/
structure IsListing (units : List SourceUnit) (relation : String → String → Prop)
    (entries : List (String × List String)) : Prop where
  sorted : (entries.map Prod.fst).Pairwise (· < ·)
  mem_iff : ∀ name names, (name, names) ∈ entries ↔
    Known units name ∧ names.Pairwise (· < ·) ∧ ∀ other, other ∈ names ↔ relation name other

/-- The entry of a file lists a name. -/
def Lists (entries : List (String × List String)) (name other : String) : Prop :=
  ∃ names, (name, names) ∈ entries ∧ other ∈ names

theorem IsListing.nodup {units : List SourceUnit} {relation : String → String → Prop}
    {entries : List (String × List String)} (h : IsListing units relation entries) :
    entries.Nodup :=
  List.Nodup.of_map Prod.fst h.sorted.nodup

namespace FileGraph

variable {units : List SourceUnit} {g : FileGraph} {table : Vector (List (Fin g.size)) g.size}
  {name other : String}

/-- Every file in order, with the sorted names of the nodes that a table lists for it. -/
def listing (g : FileGraph) (table : Vector (List (Fin g.size)) g.size) :
    List (String × List String) :=
  g.sortedFiles.map fun file => (file, g.neighbourNames table file)

theorem mem_neighbourNames : other ∈ g.neighbourNames table name ↔
    ∃ i, g.node? name = some i ∧ ∃ j ∈ table.get i, g.names.get j = other := by
  rw [neighbourNames]
  cases g.node? name with
  | none => simp
  | some i => simp [Text.mem_sortDistinct]

theorem pairwise_neighbourNames : (g.neighbourNames table name).Pairwise (· < ·) := by
  rw [neighbourNames]
  cases g.node? name with
  | none => exact .nil
  | some i => exact Text.pairwise_sortDistinct _

namespace Represents

/-- A table of the nodes that stand in a relation of names lists the names in that relation. -/
theorem mem_neighbourNames_iff (h : g.Represents units) (relation : String → String → Prop)
    (htable : ∀ i j, j ∈ table.get i ↔ relation (g.names.get i) (g.names.get j))
    (hknown : ∀ name other, relation name other → Known units name ∧ Known units other) :
    other ∈ g.neighbourNames table name ↔ relation name other := by
  simp only [mem_neighbourNames, h.node?_eq, htable]
  constructor
  · rintro ⟨i, rfl, j, hrelation, rfl⟩
    exact hrelation
  · intro hrelation
    obtain ⟨i, rfl⟩ := (h.known_iff name).mp (hknown name other hrelation).1
    obtain ⟨j, rfl⟩ := (h.known_iff other).mp (hknown _ other hrelation).2
    exact ⟨i, rfl, j, hrelation, rfl⟩

theorem mem_dependencies (h : g.Represents units) :
    other ∈ g.neighbourNames g.links.outgoing name ↔ Includes units name other := by
  refine h.mem_neighbourNames_iff (Includes units) (fun i j => ?_) fun source target hincludes => ?_
  · rw [Digraph.get_outgoing, Digraph.mem_successors, h.adj_iff]
  · exact ⟨hincludes.known_source, h.known source target hincludes⟩

theorem mem_dependents (h : g.Represents units) :
    other ∈ g.neighbourNames g.links.incoming name ↔ Includes units other name := by
  refine h.mem_neighbourNames_iff (fun target source => Includes units source target)
    (fun i j => ?_) fun target source hincludes => ?_
  · rw [Digraph.get_incoming, Digraph.mem_predecessors, h.adj_iff]
  · exact ⟨h.known source target hincludes, hincludes.known_source⟩

theorem mem_sortedFiles (h : g.Represents units) : name ∈ g.sortedFiles ↔ Known units name := by
  rw [sortedFiles, Text.mem_sortNames, h.mem_names_iff]

/-- The files are listed in order, each of them once. -/
theorem pairwise_sortedFiles (h : g.Represents units) : g.sortedFiles.Pairwise (· < ·) := by
  have hdistinct : g.sortedFiles.Nodup := (Text.perm_sortNames _).nodup_iff.mpr h.nodup
  have hsorted : g.sortedFiles.Pairwise (· ≤ ·) := Text.pairwise_sortNames _
  exact (hsorted.and hdistinct).imp fun hpair => lt_of_le_of_ne hpair.1 hpair.2

/-- The sorted lists of the neighbours of all files are a listing of the relation that their
table stands for. -/
theorem isListing (h : g.Represents units) {relation : String → String → Prop}
    (hmem : ∀ name other, other ∈ g.neighbourNames table name ↔ relation name other) :
    IsListing units relation (g.listing table) where
  sorted := by
    rw [listing, List.map_map]
    exact (List.map_id g.sortedFiles).symm ▸ h.pairwise_sortedFiles
  mem_iff name names := by
    simp only [listing, List.mem_map, h.mem_sortedFiles, Prod.mk.injEq]
    constructor
    · rintro ⟨_, hname, rfl, rfl⟩
      exact ⟨hname, pairwise_neighbourNames, hmem _⟩
    · rintro ⟨hname, hsorted, hnames⟩
      refine ⟨name, hname, rfl, pairwise_neighbourNames.eq_of_mem_iff hsorted fun other => ?_⟩
      rw [hmem, hnames]

/-- Where the names in a relation to others are names of files, the sorted lists say exactly
which names are in that relation. -/
theorem lists_iff (h : g.Represents units) {relation : String → String → Prop}
    (hmem : ∀ name other, other ∈ g.neighbourNames table name ↔ relation name other)
    (hknown : ∀ name other, relation name other → Known units name) :
    Lists (g.listing table) name other ↔ relation name other := by
  simp only [Lists, listing, List.mem_map, h.mem_sortedFiles, Prod.mk.injEq]
  constructor
  · rintro ⟨_, ⟨_, _, rfl, rfl⟩, hother⟩
    exact (hmem _ _).mp hother
  · intro hrelation
    exact ⟨_, ⟨name, hknown name other hrelation, rfl, rfl⟩, (hmem name other).mpr hrelation⟩

end Represents

end FileGraph

/-! ## The listings of a report -/

namespace Gathered

variable {units : List SourceUnit} {policy : SelfLoopPolicy} {report : Report} {g : FileGraph}
  {c : Condensed} {count : Nat}

theorem isListing_dependencies (h : Gathered units policy report g c count) :
    IsListing units (Includes units) report.dependencies := by
  obtain rfl := h.report_eq
  exact h.represents.isListing fun name other => h.represents.mem_dependencies

theorem isListing_dependents (h : Gathered units policy report g c count) :
    IsListing units (fun name other => Includes units other name) report.dependents := by
  obtain rfl := h.report_eq
  exact h.represents.isListing fun name other => h.represents.mem_dependents

theorem lists_dependencies_iff (h : Gathered units policy report g c count) {name other : String} :
    Lists report.dependencies name other ↔ Includes units name other := by
  obtain rfl := h.report_eq
  exact h.represents.lists_iff (fun _ _ => h.represents.mem_dependencies)
    fun _ _ hincludes => hincludes.known_source

theorem lists_dependents_iff (h : Gathered units policy report g c count) {name other : String} :
    Lists report.dependents name other ↔ Includes units other name := by
  obtain rfl := h.report_eq
  exact h.represents.lists_iff (fun _ _ => h.represents.mem_dependents)
    fun name other => h.represents.known other name

/-- Both listings have one entry for each file, in the order of the files. -/
theorem keys_eq (h : Gathered units policy report g c count) :
    report.dependencies.map Prod.fst = report.files ∧
      report.dependents.map Prod.fst = report.files := by
  obtain rfl := h.report_eq
  simp [Report.gather, Function.comp_def]

end Gathered

/-- The files of a report are the names of the units in strict order.  Dependencies and
dependents have the files as their keys and lists in strict order, and they are transposes of
each other: a file lists another among its dependencies exactly if the other lists it among its
dependents, and exactly if some unit of its name includes the other. -/
theorem listings_transpose {units : List SourceUnit} {policy : SelfLoopPolicy} {report : Report}
    (hreport : analyze units policy = .ok report) :
    (report.files.Pairwise (· < ·) ∧ ∀ name, name ∈ report.files ↔ Known units name) ∧
      (report.dependencies.map Prod.fst = report.files ∧
        report.dependents.map Prod.fst = report.files) ∧
      (∀ entry ∈ report.dependencies ++ report.dependents, entry.2.Pairwise (· < ·)) ∧
      ∀ name other,
        (Lists report.dependencies name other ↔ Lists report.dependents other name) ∧
          (Lists report.dependents other name ↔ Includes units name other) := by
  obtain ⟨g, c, count, h⟩ := exists_gathered hreport
  refine ⟨?_, h.keys_eq, ?_, fun name other => ⟨?_, h.lists_dependents_iff⟩⟩
  · obtain rfl := h.report_eq
    exact ⟨h.represents.pairwise_sortedFiles, fun name => h.represents.mem_sortedFiles⟩
  · rintro ⟨name, names⟩ hentry
    rcases List.mem_append.mp hentry with hdependency | hdependent
    · exact ((h.isListing_dependencies.mem_iff name names).mp hdependency).2.1
    · exact ((h.isListing_dependents.mem_iff name names).mp hdependent).2.1
  · rw [h.lists_dependencies_iff, h.lists_dependents_iff]

/-- A header in two units, which includes itself in one of them and another header in both. -/
def loopInTwoUnits : List SourceUnit :=
  [⟨"b.h", ["a.h", "b.h"]⟩, ⟨"a.h", []⟩, ⟨"b.h", ["a.h", "a.h"]⟩]

/-- Each header is listed for the other one way only, and the self-include both ways. -/
theorem listings_transpose_loopInTwoUnits :
    ∃ report, analyze loopInTwoUnits .ignore = .ok report ∧
      report.dependencies.map Prod.fst = report.files ∧
      Lists report.dependents "a.h" "b.h" ∧ ¬ Lists report.dependents "b.h" "a.h" ∧
      Lists report.dependencies "b.h" "b.h" ∧ Lists report.dependents "b.h" "b.h" := by
  obtain ⟨report, hreport⟩ := exists_analyze_of_known loopInTwoUnits .ignore (by decide)
  obtain ⟨_, ⟨hkeys, _⟩, _, hlists⟩ := listings_transpose hreport
  have hloop : Lists report.dependents "b.h" "b.h" := (hlists "b.h" "b.h").2.mpr (by decide)
  refine ⟨report, hreport, hkeys, (hlists "b.h" "a.h").2.mpr (by decide), ?_,
    (hlists "b.h" "b.h").1.mpr hloop, hloop⟩
  rw [(hlists "a.h" "b.h").2]
  decide

end IncludeGraph
