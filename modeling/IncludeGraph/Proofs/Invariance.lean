import IncludeGraph.Proofs.SelfIncludes
import IncludeGraph.Proofs.Statistics

/-!
# What a report depends on

The order of the units and of their includes decides the numbers of the nodes, the order
in which the searches meet them and the order of the components.  None of this is left in
the report: lists of units with the same names and the same includes have graphs that
differ by a renumbering, and condensed graphs that differ by another one, and all that a
report lists is the same for both.  Only entries of the condensed list that share a label
may change places.
-/

namespace IncludeGraph

open IncludeGraph.Digraph

variable {units others : List SourceUnit}

/-- Both lists of units have the same names and the same includes, whatever their order,
their repetitions and the units in which they stand. -/
structure SameIncludes (units others : List SourceUnit) : Prop where
  known_iff : ∀ name, Known units name ↔ Known others name
  includes_iff : ∀ source target, Includes units source target ↔ Includes others source target

namespace SameIncludes

theorem sameOtherIncludes (h : SameIncludes units others) : SameOtherIncludes units others :=
  ⟨h.known_iff, fun source target _ => h.includes_iff source target⟩

theorem isClass_iff (h : SameIncludes units others) (component : Component) :
    component.IsClass units ↔ component.IsClass others := by
  constructor
  · rintro ⟨hne, hsorted, hmem, hloop⟩
    simp only [h.known_iff, h.sameOtherIncludes.cycleMates_iff, h.includes_iff] at hmem hloop
    exact ⟨hne, hsorted, hmem, hloop⟩
  · rintro ⟨hne, hsorted, hmem, hloop⟩
    simp only [← h.known_iff, ← h.sameOtherIncludes.cycleMates_iff, ← h.includes_iff]
      at hmem hloop
    exact ⟨hne, hsorted, hmem, hloop⟩

theorem symm (h : SameIncludes units others) : SameIncludes others units :=
  ⟨fun name => (h.known_iff name).symm, fun source target => (h.includes_iff source target).symm⟩

theorem all_known (h : SameIncludes units others)
    (hall : ∀ unit ∈ units, ∀ name ∈ unit.includes, Known units name) :
    ∀ unit ∈ others, ∀ name ∈ unit.includes, Known others name := by
  intro unit hunit name hname
  obtain ⟨source, hsource, _, htarget⟩ :=
    (h.includes_iff unit.name name).mpr ⟨unit, hunit, rfl, hname⟩
  exact (h.known_iff name).mp (hall source hsource name htarget)

/-! ## Renumbered graphs -/

variable {g g' : FileGraph}

theorem mem_names_iff (h : SameIncludes units others) (hg : g.Represents units)
    (hg' : g'.Represents others) (name : String) :
    name ∈ g.names.toList ↔ name ∈ g'.names.toList := by
  rw [hg.mem_names_iff, hg'.mem_names_iff, h.known_iff]

/-- The graphs of the same names and includes differ by a renumbering of the files. -/
theorem exists_renumbers_links (h : SameIncludes units others) (hg : g.Represents units)
    (hg' : g'.Represents others) (hedges : g.links.edges.toList.Nodup)
    (hedges' : g'.links.edges.toList.Nodup) :
    ∃ σ : Fin g.size ≃ Fin g'.size, Renumbers σ g.links g'.links := by
  obtain ⟨σ, hσ⟩ := exists_equiv_get_eq hg.nodup hg'.nodup (h.mem_names_iff hg hg')
  refine ⟨σ, .of_adj_iff hedges hedges' fun u v => ?_⟩
  rw [hg.adj_iff, hg'.adj_iff, hσ, hσ, h.includes_iff]

/-- The same names and includes have the same components, in some order. -/
theorem components_perm (h : SameIncludes units others) (hg : g.Represents units)
    (hg' : g'.Represents others) : g.components.Perm g'.components := by
  apply (List.perm_ext_iff_of_nodup (FileGraph.nodup_components hg.nodup)
    (FileGraph.nodup_components hg'.nodup)).mpr
  intro component
  rw [hg.mem_components_iff, hg'.mem_components_iff, h.isClass_iff]

/-! ## The lists of the graphs -/

theorem sortedFiles_eq (h : SameIncludes units others) (hg : g.Represents units)
    (hg' : g'.Represents others) : g.sortedFiles = g'.sortedFiles := by
  apply Text.sortNames_eq_of_perm
  exact (List.perm_ext_iff_of_nodup hg.nodup hg'.nodup).mpr (h.mem_names_iff hg hg')

theorem dependencies_eq (h : SameIncludes units others) (hg : g.Represents units)
    (hg' : g'.Represents others) (name : String) :
    g.neighbourNames g.links.outgoing name = g'.neighbourNames g'.links.outgoing name := by
  apply FileGraph.pairwise_neighbourNames.eq_of_mem_iff FileGraph.pairwise_neighbourNames
  intro other
  rw [hg.mem_dependencies, hg'.mem_dependencies, h.includes_iff]

theorem dependents_eq (h : SameIncludes units others) (hg : g.Represents units)
    (hg' : g'.Represents others) (name : String) :
    g.neighbourNames g.links.incoming name = g'.neighbourNames g'.links.incoming name := by
  apply FileGraph.pairwise_neighbourNames.eq_of_mem_iff FileGraph.pairwise_neighbourNames
  intro other
  rw [hg.mem_dependents, hg'.mem_dependents, h.includes_iff]

theorem findCycles_eq (h : SameIncludes units others) (hg : g.Represents units)
    (hg' : g'.Represents others) (policy : SelfLoopPolicy) :
    findCycles g.components policy = findCycles g'.components policy := by
  apply Text.sortNameLists_eq_of_perm
  exact ((h.components_perm hg hg').filter _).map _

theorem fingerprint_eq (h : SameIncludes units others) (hbuild : FileGraph.build units = .ok g)
    (hbuild' : FileGraph.build others = .ok g') : g.fingerprint = g'.fingerprint := by
  have hg := FileGraph.represents_of_build hbuild
  have hg' := FileGraph.represents_of_build hbuild'
  have hedges : ∀ pair, pair ∈ FileGraph.edgeNames g.names g.links ↔
      pair ∈ FileGraph.edgeNames g'.names g'.links := by
    intro pair
    rw [hg.mem_edgeNames, hg'.mem_edgeNames, h.includes_iff]
  rw [FileGraph.fingerprint_of_build hbuild, FileGraph.fingerprint_of_build hbuild',
    FileGraph.fingerprintOf, FileGraph.fingerprintOf,
    Text.sortDistinct_eq_of_mem_iff (h.mem_names_iff hg hg'),
    Text.sortDistinctPairs_eq_of_mem_iff hedges]

end SameIncludes

/-! ## Agreeing reports -/

namespace Report

theorem pairwise_condensedEntries (c : Condensed) :
    (condensedEntries c).Pairwise fun a b => a.label ≤ b.label := by
  refine List.Pairwise.imp (fun h => of_decide_eq_true h) (List.pairwise_mergeSort ?_ ?_ _)
  · exact fun a b d => Text.sortOrder_le.trans a.label b.label d.label
  · exact fun a b => Text.sortOrder_le.total a.label b.label

/-- Entries with labels of their own have their places by them. -/
theorem condensedEntries_eq_of_perm {c c' : Condensed}
    (hperm : (condensedEntries c).Perm (condensedEntries c'))
    (hlabels : ((condensedEntries c).map (·.label)).Nodup) :
    condensedEntries c = condensedEntries c' := by
  refine List.Perm.eq_of_pairwise ?_ (pairwise_condensedEntries c) (pairwise_condensedEntries c')
    hperm
  intro a b ha hb hab hba
  exact List.inj_on_of_nodup_map hlabels ha (hperm.mem_iff.mpr hb) (le_antisymm hab hba)

/-- The reports differ at most in the order of entries of the condensed list that share a
label. -/
structure Agrees (report other : Report) : Prop where
  files_eq : report.files = other.files
  dependencies_eq : report.dependencies = other.dependencies
  dependents_eq : report.dependents = other.dependents
  cycles_eq : report.cycles = other.cycles
  plan_eq : report.plan = other.plan
  stats_eq : report.stats = other.stats
  fingerprint_eq : report.fingerprint = other.fingerprint
  condensed_perm : report.condensed.Perm other.condensed
  condensed_eq : (report.condensed.map (·.label)).Nodup → report.condensed = other.condensed

end Report

/-! ## The reports of both lists -/

theorem SameIncludes.agrees (h : SameIncludes units others) {policy : SelfLoopPolicy}
    {report other : Report} {g g' : FileGraph} {c c' : Condensed} {count count' : Nat}
    (hr : Gathered units policy report g c count)
    (hr' : Gathered others policy other g' c' count') : report.Agrees other := by
  have hg := hr.represents
  have hg' := hr'.represents
  obtain ⟨σ, hσ⟩ := h.exists_renumbers_links hg hg' (FileGraph.nodup_edges_of_build hr.build_eq)
    (FileGraph.nodup_edges_of_build hr'.build_eq)
  obtain ⟨τ, hget, hτ⟩ := h.sameOtherIncludes.exists_renumbers hr hr'
  have hfiles : g.sortedFiles = g'.sortedFiles := h.sortedFiles_eq hg hg'
  have hplan := h.sameOtherIncludes.plan_eq hr hr'
  have hcondensed := h.sameOtherIncludes.condensed_perm hr hr'
  obtain rfl := hr.report_eq
  obtain rfl := hr'.report_eq
  exact {
    files_eq := hfiles
    dependencies_eq := by simp only [Report.gather, hfiles, h.dependencies_eq hg hg']
    dependents_eq := by simp only [Report.gather, hfiles, h.dependents_eq hg hg']
    cycles_eq := h.findCycles_eq hg hg' policy
    plan_eq := hplan
    stats_eq := (Stats.compute_eq_of_renumbers hσ hτ hget).symm
    fingerprint_eq := h.fingerprint_eq hr.build_eq hr'.build_eq
    condensed_perm := hcondensed
    condensed_eq := Report.condensedEntries_eq_of_perm hcondensed
  }

/-- A report depends on the set of the names and the set of the includes alone: either both
lists of units have an unknown include, or their reports agree. -/
theorem analyze_agrees (h : SameIncludes units others) (policy : SelfLoopPolicy) :
    (∃ source target source' target',
        analyze units policy = .error (.unknownDependency source target) ∧
        analyze others policy = .error (.unknownDependency source' target')) ∨
      ∃ report other, analyze units policy = .ok report ∧ analyze others policy = .ok other ∧
        report.Agrees other := by
  rcases analyze_ok_or_unknown units policy with
    ⟨⟨report, hreport⟩, hall⟩ | ⟨source, target, hunknown, herror⟩
  · obtain ⟨other, hother⟩ := exists_analyze_of_known others policy (h.all_known hall)
    obtain ⟨g, c, count, hr⟩ := exists_gathered hreport
    obtain ⟨g', c', count', hr'⟩ := exists_gathered hother
    exact .inr ⟨report, other, hreport, hother, h.agrees hr hr'⟩
  · rcases analyze_ok_or_unknown others policy with
      ⟨_, hall⟩ | ⟨source', target', _, herror'⟩
    · exact absurd (h.symm.all_known hall) hunknown.not_all_known
    · exact .inl ⟨source, target, source', target', herror, herror'⟩

/-- Two headers that include each other, and a file with one of them. -/
def pairOfHeaders : List SourceUnit :=
  [⟨"main.c", ["a.h"]⟩, ⟨"a.h", ["b.h"]⟩, ⟨"b.h", ["a.h"]⟩]

/-- The same files in another order, with a repeated include and one header split over two
units. -/
def pairOfHeadersSplit : List SourceUnit :=
  [⟨"b.h", []⟩, ⟨"a.h", ["b.h", "b.h"]⟩, ⟨"b.h", ["a.h"]⟩, ⟨"main.c", ["a.h"]⟩]

theorem analyze_agrees_pairOfHeaders : SameIncludes pairOfHeaders pairOfHeadersSplit ∧
    ∃ report other, analyze pairOfHeaders .report = .ok report ∧
      analyze pairOfHeadersSplit .report = .ok other ∧ report.Agrees other := by
  have hsame : SameIncludes pairOfHeaders pairOfHeadersSplit := by
    refine ⟨fun name => ?_, fun source target => ?_⟩
    · simp only [Known, pairOfHeaders, pairOfHeadersSplit, List.exists_mem_cons_iff]
      grind
    · simp only [Includes, pairOfHeaders, pairOfHeadersSplit, List.exists_mem_cons_iff]
      grind
  refine ⟨hsame, ?_⟩
  rcases analyze_agrees hsame .report with ⟨_, _, _, _, herror, _⟩ | hagrees
  · obtain ⟨report, hreport⟩ := exists_analyze_of_known pairOfHeaders .report (by decide)
    rw [hreport] at herror
    cases herror
  · exact hagrees

end IncludeGraph
