import IncludeGraph.Proofs.Digraph.Contraction
import IncludeGraph.Proofs.Optimality
import IncludeGraph.Proofs.Reconciliation

/-!
# Bounds between the statistics

The condensed graph is the contraction of the include graph.  Contracting keeps files apart
that no include joins and loses the includes inside of components, so that the counters of both
graphs bound each other.
-/

namespace IncludeGraph

open IncludeGraph.Digraph

variable {units : List SourceUnit} {policy : SelfLoopPolicy} {report : Report} {g : FileGraph}
  {c : Condensed} {count : Nat}

/-! ## Isolated files -/

/-- An isolated file is a part of its own. -/
theorem Isolated.part_eq {name : String} (h : Isolated units name) : part units name = {name} := by
  have halone : ∀ source target, Relation.EqvGen (Includes units) source target →
      (source = name ↔ target = name) := by
    intro source target hjoined
    induction hjoined with
    | rel source target hincludes =>
        apply iff_of_false
        · rintro rfl
          exact (h.2 target).1 hincludes
        · rintro rfl
          exact (h.2 source).2 hincludes
    | refl _ => exact Iff.rfl
    | symm _ _ _ ih => exact ih.symm
    | trans _ _ _ _ _ hleft hright => exact hleft.trans hright
  ext other
  constructor
  · exact fun hjoined => (halone _ _ hjoined).mp rfl
  · rintro rfl
    exact .refl _

/-- Different isolated files are different parts. -/
theorem encard_isolated_le (units : List SourceUnit) : {name | Isolated units name}.encard ≤
    {names | ∃ name, Known units name ∧ part units name = names}.encard := by
  apply Set.encard_le_encard_of_injOn (f := part units)
  · exact fun name hname => ⟨name, hname.1, rfl⟩
  · intro name hname other hother heq
    rw [Isolated.part_eq hname, Isolated.part_eq hother] at heq
    exact Set.singleton_injective heq

/-! ## The condensed graph as a contraction -/

namespace Condensed.Condenses

variable {home : Fin g.size → Fin c.size}

theorem exists_contracts (h : c.Condenses g g.components) (hgraph : g.Represents units) :
    ∃ home : Fin g.size → Fin c.size, Contracts home g.links c.links ∧
      ∀ v, c.componentOf (g.names.get v) = some (home v) := by
  have hknown : ∀ v, Known units (g.names.get v) := fun v => (hgraph.known_iff _).mpr ⟨v, rfl⟩
  choose home hhome using fun v => (h.exists_componentOf_iff_known hgraph).mpr (hknown v)
  refine ⟨home, { surjective := ?_, home_eq_iff := ?_, adj_iff := ?_ }, hhome⟩
  · intro i
    obtain ⟨name, hname⟩ := h.exists_componentOf i
    obtain ⟨v, rfl⟩ := (hgraph.known_iff name).mp (h.known hgraph hname)
    exact ⟨v, Option.some.inj ((hhome v).symm.trans hname)⟩
  · intro u v
    rw [hgraph.mutuallyReachable_iff, ← h.componentOf_eq_iff hgraph (hknown u) (hknown v), hhome,
      hhome, Option.some_inj]
  · intro i j
    rw [h.adj_iff]
    simp only [hhome, Option.some_inj]

/-- A component has one member for each of its nodes. -/
theorem length_members (h : c.Condenses g g.components) (hgraph : g.Represents units)
    (hhome : ∀ v, c.componentOf (g.names.get v) = some (home v)) (i : Fin c.size) :
    (c.components.get i).members.length = (nodesOf home i).card := by
  have hclass := hgraph.isClass (h.get_mem i)
  have hnodes : {name | name ∈ (c.components.get i).members}.encard =
      (nodesOf home i).toList.length := by
    refine hgraph.encard_nodes (Finset.nodup_toList _) (fun v => ?_) fun name => hclass.known
    rw [Finset.mem_toList, mem_nodesOf, ← h.componentOf_eq, hhome, Option.some_inj]
  rw [encard_setOf_eq_length hclass.sorted.nodup fun _ => Iff.rfl, Finset.length_toList] at hnodes
  exact Nat.cast_inj.mp hnodes

/-- The members of the cycles are the files that share their component with another one. -/
theorem sum_length_cycles (h : c.Condenses g g.components) (hgraph : g.Represents units)
    (hhome : ∀ v, c.componentOf (g.names.get v) = some (home v)) :
    (((Report.condensedEntries c).filter fun entry => 1 < entry.members.length).map
      (·.members.length)).sum = (mated home).card := by
  have hlength : ∀ i, (c.components.get i).members.length = (nodesOf home i).card :=
    h.length_members hgraph hhome
  rw [card_mated, (((Report.condensedEntries_perm c).filter _).map _).sum_eq, List.filter_map,
    List.map_map]
  simp only [Function.comp_def, hlength]
  rw [← List.sum_toFinset _ ((List.nodup_finRange c.size).filter _), List.toFinset_filter,
    List.toFinset_finRange]
  simp only [decide_eq_true_eq]

end Condensed.Condenses

theorem FileGraph.countP_selfLoops_eq_card (g : FileGraph) :
    g.selfLoops.countP id = g.links.loops.card := by
  rw [vector_countP_eq, List.countP_eq_length_filter,
    ← List.toFinset_card_of_nodup ((List.nodup_finRange g.size).filter _), List.toFinset_filter,
    List.toFinset_finRange]
  simp only [id_eq, FileGraph.get_selfLoops, loops]

/-! ## The counters of a report -/

/-- The counters of a report bound each other. -/
structure Report.Bounded (report : Report) : Prop where
  isolated_le_weak : report.stats.isolatedFileCount ≤ report.stats.weaklyConnectedComponentCount
  weak_le_component : report.stats.weaklyConnectedComponentCount ≤ report.stats.componentCount
  component_le_file : report.stats.componentCount ≤ report.stats.fileCount
  component_le_add : report.stats.componentCount ≤
    report.stats.weaklyConnectedComponentCount + report.stats.condensedEdgeCount
  /-- The files of the components with more than one file have an include each that is neither
  a self-include nor an edge between components. -/
  add_le_edge : report.stats.condensedEdgeCount + report.stats.selfIncludeCount +
    ((report.condensed.filter fun entry => 1 < entry.members.length).map
      (·.members.length)).sum ≤ report.stats.edgeCount
  stages_le_component : report.plan.stages.length ≤ report.stats.componentCount

namespace Gathered

/-- A plan has no more stages than there are components. -/
theorem count_le (h : Gathered units policy report g c count) : count ≤ c.size := by
  cases count with
  | zero => exact Nat.zero_le _
  | succ d =>
      obtain ⟨i, hi⟩ := List.exists_mem_of_ne_nil _ (h.level_ne_nil d (Nat.lt_succ_self d))
      exact (mem_level.mp hi).lt_size

theorem bounded (h : Gathered units policy report g c count) : report.Bounded := by
  have hcounts := h.counts
  have hcount := h.count_le
  have hgraph := h.represents
  have hnodup := Condensed.nodup_edges_of_ofComponents h.condensed_eq
  obtain ⟨home, hcontracts, hhome⟩ := h.condenses.exists_contracts hgraph
  have hweak : g.links.weaklyConnected.length = Nat.card (Quot c.links.Adj) := by
    rw [length_weaklyConnected, hcontracts.card_quot_eq]
  have hisolated := encard_isolated_le units
  rw [← hcounts.isolatedFileCount_eq, ← hcounts.weaklyConnectedComponentCount_eq,
    Nat.cast_le] at hisolated
  obtain rfl := h.report_eq
  exact {
    isolated_le_weak := hisolated
    weak_le_component := hweak.le.trans (Contracts.card_quot_le c.links)
    component_le_file := hcontracts.size_le
    component_le_add := by
      change c.size ≤ g.links.weaklyConnected.length + c.links.edgeCount
      rw [hweak]
      exact le_card_quot_add_edgeCount c.links
    add_le_edge := by
      change c.links.edgeCount + g.selfLoops.countP id +
        (((Report.condensedEntries c).filter _).map _).sum ≤ g.links.edgeCount
      rw [h.condenses.sum_length_cycles hgraph hhome, g.countP_selfLoops_eq_card]
      exact hcontracts.edgeCount_add_le hnodup
    stages_le_component := by
      change ((List.range count).map (Plan.stageAt c)).length ≤ c.size
      rw [List.length_map, List.length_range]
      exact hcount
  }

end Gathered

/-- The weakly connected components of a report are the classes of files under the equivalence
that includes generate, and the counters of the report bound each other. -/
theorem statistics_bounded (hreport : analyze units policy = .ok report) :
    (report.stats.weaklyConnectedComponentCount : ℕ∞) =
        {names | ∃ name, Known units name ∧ part units name = names}.encard ∧
      report.Bounded := by
  obtain ⟨g, c, count, h⟩ := exists_gathered hreport
  exact ⟨h.counts.weaklyConnectedComponentCount_eq, h.bounded⟩

/-- Includes join all files of the ring and the two loops, so that there is at most one component
more than there are edges between components. -/
theorem statistics_bounded_loopsAndRing :
    ∃ report, analyze loopsAndRing .ignore = .ok report ∧
      report.stats.weaklyConnectedComponentCount = 1 ∧
      report.stats.componentCount ≤ 1 + report.stats.condensedEdgeCount := by
  obtain ⟨report, hreport⟩ := exists_analyze_of_known loopsAndRing .ignore (by decide)
  obtain ⟨hweak, hbounded⟩ := statistics_bounded hreport
  have hma : Includes loopsAndRing "main.c" "a.h" := by decide
  have hml : Includes loopsAndRing "main.c" "log.h" := by decide
  have hba : Includes loopsAndRing "b.h" "a.h" := by decide
  have hjoined : ∀ name, Known loopsAndRing name →
      part loopsAndRing name = part loopsAndRing "main.c" := by
    intro name hname
    simp only [Known, loopsAndRing, List.mem_cons, List.not_mem_nil, or_false, exists_eq_or_imp,
      exists_eq_left] at hname
    rcases hname with rfl | rfl | rfl | rfl
    · rfl
    · exact part_eq_of_joined (.symm _ _ (.rel _ _ hma))
    · exact part_eq_of_joined (.trans _ _ _ (.rel _ _ hba) (.symm _ _ (.rel _ _ hma)))
    · exact part_eq_of_joined (.symm _ _ (.rel _ _ hml))
  have hparts : {names | ∃ name, Known loopsAndRing name ∧ part loopsAndRing name = names} =
      {part loopsAndRing "main.c"} := by
    ext names
    constructor
    · rintro ⟨name, hname, rfl⟩
      exact hjoined name hname
    · rintro rfl
      exact ⟨"main.c", by decide, rfl⟩
  rw [hparts, Set.encard_singleton, Nat.cast_eq_one] at hweak
  exact ⟨report, hreport, hweak, hweak ▸ hbounded.component_le_add⟩

end IncludeGraph
