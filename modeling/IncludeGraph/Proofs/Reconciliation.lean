import Mathlib.Algebra.BigOperators.Fin
import IncludeGraph.Proofs.Counts
import IncludeGraph.Proofs.Labels
import IncludeGraph.Proofs.SelfIncludes

/-!
# Statistics and the lists of a report

The statistics are counted on the two graphs, node by node and edge by edge, while the lists of
a report are sorted lists of names without repetitions.  Neither graph has parallel edges, so
that the list of a file is as long as its node has neighbours and every counter can be read off
the lists again.
-/

namespace IncludeGraph

open IncludeGraph.Digraph

variable {units : List SourceUnit} {policy : SelfLoopPolicy} {report other : Report}
  {g g' : FileGraph} {c c' : Condensed} {count count' : Nat}

/-! ## Degrees -/

namespace Digraph

variable {n : Nat}

theorem sum_count_eq_length (nodes : List (Fin n)) : ∑ v, nodes.count v = nodes.length := by
  have hsum := Multiset.sum_count_eq_card (s := Finset.univ) (m := (nodes : Multiset (Fin n)))
    fun v _ => Finset.mem_univ v
  simpa using hsum

/-- Every edge is listed once, at its near end. -/
theorem sum_length_adjacency (g : Digraph n) (near far : Fin n × Fin n → Fin n) :
    ((g.adjacency near far).map List.length).toList.sum = g.edgeCount := by
  have hdegree : ∀ v, ((g.adjacency near far).map List.length).get v =
      (g.edges.toList.map near).count v := by
    intro v
    rw [vector_get_map, get_adjacency, List.length_reverse, List.length_filterMap_eq_countP,
      List.count_eq_countP, List.countP_map]
    apply List.countP_congr
    intro e _
    by_cases hnear : near e = v
    · simp [hnear]
    · simp [hnear]
  rw [vector_toList_eq_map_get, ← Fin.sum_univ_def, Finset.sum_congr rfl fun v _ => hdegree v,
    sum_count_eq_length, List.length_map, Array.length_toList, edgeCount]

theorem nodup_outgoing {g : Digraph n} (hedges : g.edges.toList.Nodup) (v : Fin n) :
    (g.outgoing.get v).Nodup := by
  rw [get_outgoing]
  exact nodup_successors hedges v

theorem nodup_incoming {g : Digraph n} (hedges : g.edges.toList.Nodup) (v : Fin n) :
    (g.incoming.get v).Nodup := by
  rw [get_incoming]
  exact nodup_predecessors hedges v

end Digraph

/-! ## Lists of neighbours -/

namespace FileGraph

theorem sortedFiles_perm (g : FileGraph) :
    g.sortedFiles.Perm ((List.finRange g.size).map g.names.get) :=
  vector_toList_eq_map_get g.names ▸ Text.perm_sortNames g.names.toList

/-- Counting files is counting their nodes. -/
theorem countP_sortedFiles (g : FileGraph) (p : String → Bool) :
    g.sortedFiles.countP p = (List.finRange g.size).countP fun v => p (g.names.get v) := by
  rw [g.sortedFiles_perm.countP_eq, List.countP_map]
  rfl

namespace Represents

variable {table : Vector (List (Fin g.size)) g.size} {v : Fin g.size}

theorem length_neighbourNames_get (h : g.Represents units) (hrow : (table.get v).Nodup) :
    (g.neighbourNames table (g.names.get v)).length = (table.get v).length := by
  rw [neighbourNames, (h.node?_eq _ v).mpr rfl]
  exact (Text.perm_sortDistinct (hrow.map h.injective)).length_eq.trans (List.length_map _)

/-- The lists of a listing are as long as the rows of its table. -/
theorem lengths_perm (h : g.Represents units) (hrows : ∀ v, (table.get v).Nodup) :
    ((g.listing table).map (·.2.length)).Perm (table.map List.length).toList := by
  rw [listing, List.map_map, vector_toList_eq_map_get]
  refine (g.sortedFiles_perm.map _).trans (List.Perm.of_eq ?_)
  rw [List.map_map]
  apply List.map_congr_left
  intro v _
  rw [vector_get_map]
  exact h.length_neighbourNames_get (hrows v)

theorem max?_lengths_eq (h : g.Represents units) (hrows : ∀ v, (table.get v).Nodup) :
    ((g.listing table).map (·.2.length)).max?.getD 0 =
      (table.map List.length).foldl max 0 := by
  rw [← Vector.foldl_toList, ← (h.lengths_perm hrows).foldl_eq, List.foldl_max, Nat.zero_max]

/-- The file of a node has an empty list exactly if the row of the node is empty. -/
theorem nil_mem_listing_iff (h : g.Represents units) (hrow : (table.get v).Nodup) :
    (g.names.get v, []) ∈ g.listing table ↔ (table.get v).length = 0 := by
  have hfile : g.names.get v ∈ g.sortedFiles :=
    h.mem_sortedFiles.mpr ((h.known_iff _).mpr ⟨v, rfl⟩)
  rw [← h.length_neighbourNames_get hrow, List.length_eq_zero_iff, listing, List.mem_map]
  simp [hfile]

end Represents

end FileGraph

/-! ## Counters of the include graph -/

namespace FileGraph.Represents

theorem countP_selfLoops (h : g.Represents units) : g.selfLoops.countP id =
    (g.listing g.links.outgoing).countP fun entry => entry.1 ∈ entry.2 := by
  rw [listing, vector_countP_eq, List.countP_map, countP_sortedFiles]
  apply List.countP_congr
  intro v _
  simp [get_selfLoops, h.mem_dependencies, h.adj_iff]

/-- The nodes without neighbours are those of the files with two empty lists. -/
theorem countP_isolated (h : g.Represents units) (hedges : g.links.edges.toList.Nodup) :
    ((g.links.outgoing.map List.length).zipWith (· + ·)
      (g.links.incoming.map List.length)).countP (· == 0) =
    g.sortedFiles.countP fun file =>
      (file, []) ∈ g.listing g.links.outgoing ∧ (file, []) ∈ g.listing g.links.incoming := by
  rw [vector_countP_eq, countP_sortedFiles]
  apply List.countP_congr
  intro v _
  rw [vector_get_zipWith, vector_get_map, vector_get_map, beq_iff_eq, Nat.add_eq_zero_iff,
    decide_eq_true_eq, h.nil_mem_listing_iff (nodup_outgoing hedges v),
    h.nil_mem_listing_iff (nodup_incoming hedges v)]

end FileGraph.Represents

/-! ## Counters of the condensed graph -/

namespace Report

/-- The entries are those of the components, in some order. -/
theorem condensedEntries_perm (c : Condensed) :
    (condensedEntries c).Perm ((List.finRange c.size).map fun i => {
      label := (c.components.get i).label
      members := (c.components.get i).members
      dependsOn := c.dependencyLabels.get i }) :=
  List.mergeSort_perm _ _

theorem length_condensedEntries (c : Condensed) :
    (condensedEntries c).length = c.componentCount := by
  rw [(condensedEntries_perm c).length_eq, List.length_map, List.length_finRange,
    Condensed.componentCount]

/-- Every edge of the condensed graph is a label that an entry depends on. -/
theorem sum_length_dependsOn (c : Condensed) :
    ((condensedEntries c).map (·.dependsOn.length)).sum = c.links.edgeCount := by
  have hlength : ∀ i, (c.dependencyLabels.get i).length =
      (c.links.outgoing.map List.length).get i := by
    intro i
    rw [Condensed.dependencyLabels, vector_get_map, vector_get_map,
      (Text.perm_sortNames _).length_eq, List.length_map]
  rw [((condensedEntries_perm c).map _).sum_eq, List.map_map]
  simp only [Function.comp_def, hlength]
  rw [← vector_toList_eq_map_get]
  exact sum_length_adjacency c.links Prod.fst Prod.snd

theorem countP_condensedEntries (c : Condensed) :
    (condensedEntries c).countP (fun entry => 1 < entry.members.length) = c.cycleCount := by
  rw [(condensedEntries_perm c).countP_eq, List.countP_map, Condensed.cycleCount,
    vector_countP_eq]
  rfl

end Report

/-! ## Statistics -/

/-- The statistics can be read off the lists of the report. -/
structure Report.Reconciles (report : Report) : Prop where
  fileCount_eq : report.stats.fileCount = report.files.length
  edgeCount_eq_dependencies :
    report.stats.edgeCount = (report.dependencies.map (·.2.length)).sum
  edgeCount_eq_dependents : report.stats.edgeCount = (report.dependents.map (·.2.length)).sum
  maxOutDegree_eq :
    report.stats.maxOutDegree = (report.dependencies.map (·.2.length)).max?.getD 0
  maxInDegree_eq : report.stats.maxInDegree = (report.dependents.map (·.2.length)).max?.getD 0
  selfIncludeCount_eq :
    report.stats.selfIncludeCount = report.dependencies.countP fun entry => entry.1 ∈ entry.2
  isolatedFileCount_eq : report.stats.isolatedFileCount = report.files.countP fun file =>
    (file, []) ∈ report.dependencies ∧ (file, []) ∈ report.dependents
  componentCount_eq : report.stats.componentCount = report.condensed.length
  condensedEdgeCount_eq :
    report.stats.condensedEdgeCount = (report.condensed.map (·.dependsOn.length)).sum
  cycleCount_eq : report.stats.cycleCount =
    report.condensed.countP fun entry => 1 < entry.members.length

namespace Gathered

theorem reconciles (h : Gathered units policy report g c count) : report.Reconciles := by
  have hgraph := h.represents
  have hedges := FileGraph.nodup_edges_of_build h.build_eq
  obtain rfl := h.report_eq
  exact {
    fileCount_eq := by
      change g.size = g.sortedFiles.length
      rw [g.sortedFiles_perm.length_eq, List.length_map, List.length_finRange]
    edgeCount_eq_dependencies := by
      change g.links.edgeCount = _
      rw [← sum_length_adjacency g.links Prod.fst Prod.snd]
      exact (hgraph.lengths_perm (nodup_outgoing hedges)).sum_eq.symm
    edgeCount_eq_dependents := by
      change g.links.edgeCount = _
      rw [← sum_length_adjacency g.links Prod.snd Prod.fst]
      exact (hgraph.lengths_perm (nodup_incoming hedges)).sum_eq.symm
    maxOutDegree_eq := (hgraph.max?_lengths_eq (nodup_outgoing hedges)).symm
    maxInDegree_eq := (hgraph.max?_lengths_eq (nodup_incoming hedges)).symm
    selfIncludeCount_eq := hgraph.countP_selfLoops
    isolatedFileCount_eq := hgraph.countP_isolated hedges
    componentCount_eq := (Report.length_condensedEntries c).symm
    condensedEdgeCount_eq := (Report.sum_length_dependsOn c).symm
    cycleCount_eq := (Report.countP_condensedEntries c).symm
  }

/-- Single files are no cycles unless the policy asks for them. -/
theorem length_cycles_of_ignore (h : Gathered units .ignore report g c count) :
    report.cycles.length = report.stats.cycleCount := by
  have hreported : ∀ component ∈ g.components,
      component.isReported .ignore = true ↔ component.isCycle = true := by
    intro component _
    simp [Component.isReported_iff]
  obtain rfl := h.report_eq
  change (Text.sortNameLists _).length = c.cycleCount
  rw [Text.sortNameLists, List.length_mergeSort, List.length_map, ← List.countP_eq_length_filter,
    List.countP_congr hreported, Condensed.cycleCount, ← Vector.countP_toList,
    h.condenses.toList_eq]

/-- The condensed list has the members of the classes of cycle-mates. -/
theorem mem_members_condensed_iff (h : Gathered units policy report g c count)
    {members : List String} : members ∈ report.condensed.map (·.members) ↔
      ∃ component : Component, component.IsClass units ∧ component.members = members := by
  rw [List.mem_map]
  constructor
  · rintro ⟨entry, hentry, rfl⟩
    obtain rfl := h.report_eq
    obtain ⟨i, rfl⟩ := Report.mem_condensedEntries.mp hentry
    exact ⟨c.components.get i, h.represents.isClass (h.condenses.get_mem i), rfl⟩
  · rintro ⟨component, hclass, rfl⟩
    obtain ⟨entry, hentry, _, hmembers⟩ := h.exists_entry hclass
    exact ⟨entry, hentry, hmembers⟩

/-- The report shows which files include themselves and have no other cycle-mates. -/
theorem loneSelfInclude_iff (h : Gathered units policy report g c count) {name : String} :
    LoneSelfInclude units name ↔
      Lists report.dependencies name name ∧ [name] ∈ report.condensed.map (·.members) := by
  rw [h.lists_dependencies_iff, h.mem_members_condensed_iff]
  refine and_congr_right fun hincludes => ?_
  constructor
  · intro halone
    obtain ⟨component, hcomponent, hname⟩ :=
      h.represents.exists_component_of_known hincludes.known_source
    have hclass := h.represents.isClass hcomponent
    exact ⟨component, hclass, (hclass.members_eq_singleton_iff hname).mpr halone⟩
  · rintro ⟨component, hclass, hmembers⟩
    have hname : name ∈ component.members := hmembers ▸ List.mem_singleton_self name
    exact (hclass.members_eq_singleton_iff hname).mp hmembers

/-- A list of the files that include only themselves is as long as the report has such files. -/
theorem length_eq_countP_lone (h : Gathered units policy report g c count) {lone : List String}
    (hnodup : lone.Nodup) (hlone : ∀ name, name ∈ lone ↔ LoneSelfInclude units name) :
    lone.length = report.dependencies.countP fun entry =>
      entry.1 ∈ entry.2 ∧ [entry.1] ∈ report.condensed.map (·.members) := by
  rw [List.countP_eq_length_filter, ← List.length_map Prod.fst]
  apply List.Perm.length_eq
  apply (List.perm_ext_iff_of_nodup hnodup ?_).mpr
  · intro name
    simp only [hlone, h.loneSelfInclude_iff, List.mem_map, List.mem_filter, decide_eq_true_eq]
    constructor
    · rintro ⟨⟨names, hentry, hname⟩, hsingle⟩
      exact ⟨(name, names), ⟨hentry, hname, hsingle⟩, rfl⟩
    · rintro ⟨⟨_, names⟩, ⟨hentry, hname, hsingle⟩, rfl⟩
      exact ⟨⟨names, hentry, hname⟩, hsingle⟩
  · exact h.isListing_dependencies.sorted.nodup.sublist (List.filter_sublist.map Prod.fst)

end Gathered

/-- The statistics reconcile with the lists of the report.  Their cycles are those that are
listed where self-includes are ignored, and reporting self-includes adds one for every file that
includes itself and is alone in its component. -/
theorem statistics_reconcile (hreport : analyze units policy = .ok report) :
    report.Reconciles ∧
      ∃ ignoring reporting, analyze units .ignore = .ok ignoring ∧
        analyze units .report = .ok reporting ∧
        report.stats.cycleCount = ignoring.cycles.length ∧
        reporting.cycles.length = report.stats.cycleCount +
          report.dependencies.countP fun entry =>
            entry.1 ∈ entry.2 ∧ [entry.1] ∈ report.condensed.map (·.members) := by
  obtain ⟨g, c, count, h⟩ := exists_gathered hreport
  obtain ⟨ignoring, hignoring⟩ := exists_analyze_of_represents h.build_eq h.represents .ignore
  obtain ⟨reporting, hreporting⟩ := exists_analyze_of_represents h.build_eq h.represents .report
  obtain ⟨_, _, _, hi⟩ := exists_gathered hignoring
  obtain ⟨_, _, _, hr⟩ := exists_gathered hreporting
  have hstats : report.stats = ignoring.stats := by rw [hi.eq_with_cycles h]
  have hcycles : report.stats.cycleCount = ignoring.cycles.length := by
    rw [hstats, hi.length_cycles_of_ignore]
  obtain ⟨lone, hnodup, hlone, hadded⟩ := hi.cycles_eq_of_policies hr
  refine ⟨h.reconciles, ignoring, reporting, hignoring, hreporting, hcycles, ?_⟩
  rw [hcycles, ← h.length_eq_countP_lone hnodup hlone, hadded, Text.sortNameLists,
    List.length_mergeSort, List.length_append, List.length_map]

theorem loneSelfInclude_loopsAndRing : LoneSelfInclude loopsAndRing "log.h" := by
  refine ⟨by decide, fun mate hmates => ?_⟩
  obtain ⟨hchain, -⟩ := hmates
  induction hchain with
  | refl => rfl
  | tail _ hincludes ih =>
      rw [ih] at hincludes
      simpa [Includes, loopsAndRing] using hincludes

/-- For the ring and the two loops, the header that includes only itself makes the difference
between both lists of cycles. -/
theorem statistics_reconcile_loopsAndRing :
    ∃ report ignoring reporting, analyze loopsAndRing .report = .ok report ∧
      analyze loopsAndRing .ignore = .ok ignoring ∧
      analyze loopsAndRing .report = .ok reporting ∧
      report.stats.edgeCount = (report.dependencies.map (·.2.length)).sum ∧
      report.stats.cycleCount = ignoring.cycles.length ∧
      ignoring.cycles.length < reporting.cycles.length := by
  obtain ⟨report, hreport⟩ := exists_analyze_of_known loopsAndRing .report (by decide)
  obtain ⟨hcounters, ignoring, reporting, hignoring, hreporting, hcycles, hadded⟩ :=
    statistics_reconcile hreport
  refine ⟨report, ignoring, reporting, hreport, hignoring, hreporting,
    hcounters.edgeCount_eq_dependencies, hcycles, ?_⟩
  obtain ⟨g, c, count, h⟩ := exists_gathered hreport
  obtain ⟨⟨names, hentry, hname⟩, hsingle⟩ :=
    h.loneSelfInclude_iff.mp loneSelfInclude_loopsAndRing
  rw [hadded, ← hcycles]
  apply Nat.lt_add_of_pos_right
  rw [List.countP_pos_iff]
  exact ⟨("log.h", names), hentry, decide_eq_true ⟨hname, hsingle⟩⟩

end IncludeGraph
