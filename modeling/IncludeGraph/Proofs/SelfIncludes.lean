import IncludeGraph.Proofs.Cycles
import IncludeGraph.Proofs.Digraph.Renumbering
import IncludeGraph.Proofs.Neighbours
import IncludeGraph.Proofs.Stalling

/-!
# Self-includes

A file that includes itself is a self-loop of the include graph.  Two files are cycle-mates
with or without it, and condensing leaves it out.  Lists of units with the same includes
between different files therefore have the same components in another order, and whatever a
report says about stages, about cycles of several files and about components is the same for
both.  Self-includes show in the list of cycles alone, and only if the policy asks for them.
-/

namespace IncludeGraph

open IncludeGraph.Digraph

variable {units others : List SourceUnit} {policy policy' : SelfLoopPolicy}
  {report other : Report} {g g' : FileGraph} {c c' : Condensed} {count count' : Nat}

/-! ## Stages and entries of renumbered components -/

section Renumbered

variable {τ : Fin c.size ≃ Fin c'.size}

theorem Plan.stageAt_eq_of_renumbers (hτ : RenumbersAdj τ c.links c'.links)
    (hget : ∀ i, (c'.components.get (τ i)).members = (c.components.get i).members) (d : Nat) :
    Plan.stageAt c' d = Plan.stageAt c d := by
  apply Text.sortNames_eq_of_perm
  calc
    List.Perm ((c'.links.level d).flatMap fun i => (c'.components.get i).members)
        (((c.links.level d).map τ).flatMap fun i => (c'.components.get i).members) :=
      (hτ.level_perm d).flatMap_right _
    _ = (c.links.level d).flatMap fun i => (c.components.get i).members := by
      simp only [List.flatMap_map, hget]

/-- The number of stages is the number of levels. -/
theorem Plan.count_le_of_renumbers (hτ : RenumbersAdj τ c.links c'.links)
    (hlevels : ∀ d < count', c'.links.level d ≠ []) (hend : ∀ i, ¬ c.links.Chain count i) :
    count' ≤ count := by
  by_contra hlt
  obtain ⟨x, hx⟩ := List.exists_mem_of_ne_nil _ (hlevels count (Nat.lt_of_not_le hlt))
  obtain ⟨i, rfl⟩ := τ.surjective x
  exact hend i (hτ.chain_iff.mp (mem_level.mp hx).1)

/-- Staging asks which components are adjacent, and neither for their numbers nor for the number
of edges that join them. -/
theorem Plan.ofCondensed_eq_of_renumbers (hτ : RenumbersAdj τ c.links c'.links)
    (hget : ∀ i, (c'.components.get (τ i)).members = (c.components.get i).members) :
    ofCondensed c' = ofCondensed c := by
  by_cases hcycle : c.links.HasCycle
  · have hcount : (List.finRange c'.size).countP (fun i => c'.links.LeadsToCycle i) =
        (List.finRange c.size).countP fun i => c.links.LeadsToCycle i := by
      rw [(finRange_perm_map τ).countP_eq, List.countP_map]
      simp only [Function.comp_def, hτ.leadsToCycle_iff]
    have hsize : c'.size = c.size := (Fin.equiv_iff_eq.mp ⟨τ⟩).symm
    rw [ofCondensed_of_hasCycle c hcycle, ofCondensed_of_hasCycle c' (hτ.hasCycle_iff.mpr hcycle),
      hcount, hsize]
  · obtain ⟨count, hstaged, hlevels, hend⟩ := ofCondensed_of_acyclic c hcycle
    obtain ⟨count', hstaged', hlevels', hend'⟩ :=
      ofCondensed_of_acyclic c' (mt hτ.hasCycle_iff.mp hcycle)
    have hstages : stageAt c' = stageAt c := funext (stageAt_eq_of_renumbers hτ hget)
    have hcount : count' = count := Nat.le_antisymm (count_le_of_renumbers hτ hlevels' hend)
      (count_le_of_renumbers hτ.symm hlevels hend')
    rw [hstaged, hstaged', hcount, hstages]

/-- The members of a component make up its label. -/
theorem Component.label_eq_of_members_eq {component component' : Component}
    (h : component.members = component'.members) : component.label = component'.label := by
  rw [label, label, isCycle, isCycle, representative, representative, h]

theorem Condensed.dependencyLabels_eq_of_renumbers (hτ : Renumbers τ c.links c'.links)
    (hget : ∀ i, (c'.components.get (τ i)).members = (c.components.get i).members)
    (i : Fin c.size) : c'.dependencyLabels.get (τ i) = c.dependencyLabels.get i := by
  rw [dependencyLabels, dependencyLabels, vector_get_map, vector_get_map]
  apply Text.sortNames_eq_of_perm
  calc
    List.Perm ((c'.links.outgoing.get (τ i)).map fun j => (c'.components.get j).label)
        (((c.links.outgoing.get i).map τ).map fun j => (c'.components.get j).label) :=
      (hτ.get_outgoing_perm i).map _
    _ = (c.links.outgoing.get i).map fun j => (c.components.get j).label := by
      rw [List.map_map]
      exact List.map_congr_left fun j _ => Component.label_eq_of_members_eq (hget j)

theorem Report.condensedEntries_perm_of_renumbers (hτ : Renumbers τ c.links c'.links)
    (hget : ∀ i, (c'.components.get (τ i)).members = (c.components.get i).members) :
    (condensedEntries c).Perm (condensedEntries c') := by
  refine (List.mergeSort_perm _ _).trans (List.Perm.trans ?_ (List.mergeSort_perm _ _).symm)
  refine List.Perm.trans (List.Perm.of_eq ?_) ((finRange_perm_map τ).symm.map _)
  rw [List.map_map]
  apply List.map_congr_left
  intro i _
  simp only [Function.comp_apply, hget, Component.label_eq_of_members_eq (hget i),
    Condensed.dependencyLabels_eq_of_renumbers hτ hget]

end Renumbered

/-! ## The same includes between different files -/

/-- Both lists of units have the same names, and every file includes the same other files;
each of them may include itself in one list and not in the other. -/
structure SameOtherIncludes (units others : List SourceUnit) : Prop where
  known_iff : ∀ name, Known units name ↔ Known others name
  includes_iff : ∀ source target, source ≠ target →
    (Includes units source target ↔ Includes others source target)

namespace SameOtherIncludes

variable {name : String}

theorem symm (h : SameOtherIncludes units others) : SameOtherIncludes others units where
  known_iff name := (h.known_iff name).symm
  includes_iff source target hne := (h.includes_iff source target hne).symm

/-- A self-include on a chain can be left out. -/
theorem dependsOn (h : SameOtherIncludes units others) {target : String}
    (hchain : DependsOn units name target) : DependsOn others name target := by
  induction hchain with
  | refl => exact .refl
  | @tail middle target _ hincludes ih =>
      by_cases hloop : middle = target
      · exact hloop ▸ ih
      · exact ih.tail ((h.includes_iff middle target hloop).mp hincludes)

theorem cycleMates_iff (h : SameOtherIncludes units others) {mate : String} :
    CycleMates units name mate ↔ CycleMates others name mate :=
  ⟨fun hmates => ⟨h.dependsOn hmates.1, h.dependsOn hmates.2⟩,
    fun hmates => ⟨h.symm.dependsOn hmates.1, h.symm.dependsOn hmates.2⟩⟩

theorem mem_members (h : SameOtherIncludes units others) (hg : g.Represents units)
    (hg' : g'.Represents others) {members : List String}
    (hmembers : members ∈ g.components.map (·.members)) :
    members ∈ g'.components.map (·.members) := by
  obtain ⟨component, hcomponent, rfl⟩ := List.mem_map.mp hmembers
  have hclass := hg.isClass hcomponent
  obtain ⟨name, hname⟩ := List.exists_mem_of_ne_nil _ hclass.ne_nil
  obtain ⟨component', hcomponent', hname'⟩ :=
    hg'.exists_component_of_known ((h.known_iff name).mp (hclass.known hname))
  have hclass' := hg'.isClass hcomponent'
  refine List.mem_map.mpr ⟨component', hcomponent', ?_⟩
  apply hclass'.sorted.eq_of_mem_iff hclass.sorted
  intro mate
  rw [hclass'.mem_iff_cycleMates hname', hclass.mem_iff_cycleMates hname, h.cycleMates_iff]

/-- The components have the same members, in some order. -/
theorem members_perm (h : SameOtherIncludes units others) (hg : g.Represents units)
    (hg' : g'.Represents others) :
    (g.components.map (·.members)).Perm (g'.components.map (·.members)) := by
  apply (List.perm_ext_iff_of_nodup (FileGraph.nodup_map_members hg.nodup)
    (FileGraph.nodup_map_members hg'.nodup)).mpr
  exact fun _ => ⟨h.mem_members hg hg', h.symm.mem_members hg' hg⟩

/-- The condensed graphs differ by a renumbering of the components. -/
theorem exists_renumbers_of_condenses (h : SameOtherIncludes units others)
    (hg : g.Represents units) (hg' : g'.Represents others) (hc : c.Condenses g g.components)
    (hc' : c'.Condenses g' g'.components) (hedges : c.links.edges.toList.Nodup)
    (hedges' : c'.links.edges.toList.Nodup) :
    ∃ τ : Fin c.size ≃ Fin c'.size,
      (∀ i, (c'.components.get (τ i)).members = (c.components.get i).members) ∧
        Renumbers τ c.links c'.links := by
  have hperm := h.members_perm hg hg'
  have hnodup := FileGraph.nodup_map_members hg.nodup
  rw [← hc.toList_eq, ← Vector.toList_map] at hperm hnodup
  rw [← hc'.toList_eq, ← Vector.toList_map] at hperm
  obtain ⟨τ, hτ⟩ := exists_equiv_get_eq hnodup (hperm.nodup_iff.mp hnodup) fun _ => hperm.mem_iff
  simp only [vector_get_map] at hτ
  refine ⟨τ, hτ, .of_adj_iff hedges hedges' fun i j => ?_⟩
  rw [hc.adj_iff_includes hg, hc'.adj_iff_includes hg', τ.apply_eq_iff_eq.ne]
  simp only [hc'.componentOf_eq, hτ, ← hc.componentOf_eq]
  refine and_congr_right fun hne => exists₂_congr fun source target => and_congr_left ?_
  rintro ⟨hsource, htarget⟩
  -- Files of different components are different.
  refine h.includes_iff source target ?_
  rintro rfl
  exact hne (Option.some.inj (hsource.symm.trans htarget))

theorem exists_renumbers (h : SameOtherIncludes units others)
    (hr : Gathered units policy report g c count)
    (hr' : Gathered others policy' other g' c' count') :
    ∃ τ : Fin c.size ≃ Fin c'.size,
      (∀ i, (c'.components.get (τ i)).members = (c.components.get i).members) ∧
        Renumbers τ c.links c'.links :=
  h.exists_renumbers_of_condenses hr.represents hr'.represents hr.condenses hr'.condenses
    (Condensed.nodup_edges_of_ofComponents hr.condensed_eq)
    (Condensed.nodup_edges_of_ofComponents hr'.condensed_eq)

theorem plan_eq (h : SameOtherIncludes units others)
    (hr : Gathered units policy report g c count)
    (hr' : Gathered others policy' other g' c' count') : report.plan = other.plan := by
  obtain ⟨τ, hget, hτ⟩ := h.exists_renumbers hr hr'
  have hstaged := Plan.ofCondensed_eq_of_renumbers hτ.renumbersAdj hget
  rw [hr.plan_eq, hr'.plan_eq] at hstaged
  obtain rfl := hr.report_eq
  obtain rfl := hr'.report_eq
  exact (Except.ok.inj hstaged).symm

theorem condensed_perm (h : SameOtherIncludes units others)
    (hr : Gathered units policy report g c count)
    (hr' : Gathered others policy' other g' c' count') :
    report.condensed.Perm other.condensed := by
  obtain ⟨τ, hget, hτ⟩ := h.exists_renumbers hr hr'
  obtain rfl := hr.report_eq
  obtain rfl := hr'.report_eq
  exact Report.condensedEntries_perm_of_renumbers hτ hget

end SameOtherIncludes

/-! ## Cycles of several files -/

/-- A policy reports all components of several files. -/
theorem Gathered.mem_filter_cycles_iff (h : Gathered units policy report g c count)
    {cycle : List String} : cycle ∈ report.cycles.filter (1 < ·.length) ↔
      1 < cycle.length ∧ cycle ∈ g.components.map (·.members) := by
  rw [List.mem_filter, decide_eq_true_eq, and_comm]
  refine and_congr_right fun hlength => ?_
  rw [h.mem_cycles_iff, List.mem_map]
  refine exists_congr fun component => ?_
  rw [h.represents.mem_components_iff]
  constructor
  · rintro ⟨hclass, _, hmembers⟩
    exact ⟨hclass, hmembers⟩
  · rintro ⟨hclass, rfl⟩
    exact ⟨hclass, Component.isReported_iff.mpr (.inl (Component.isCycle_iff.mpr hlength)), rfl⟩

theorem SameOtherIncludes.filter_cycles_eq (h : SameOtherIncludes units others)
    (hr : Gathered units policy report g c count)
    (hr' : Gathered others policy' other g' c' count') :
    report.cycles.filter (1 < ·.length) = other.cycles.filter (1 < ·.length) := by
  apply (hr.pairwise_cycles.filter _).eq_of_mem_iff (hr'.pairwise_cycles.filter _)
  intro cycle
  rw [hr.mem_filter_cycles_iff, hr'.mem_filter_cycles_iff,
    (h.members_perm hr.represents hr'.represents).mem_iff]

/-! ## Both policies -/

/-- The file includes itself and has no other cycle-mates. -/
def LoneSelfInclude (units : List SourceUnit) (name : String) : Prop :=
  Includes units name name ∧ ∀ mate, CycleMates units name mate → mate = name

namespace Gathered

/-- The marked components are the single files that include themselves. -/
theorem exists_selfLoop_iff (h : Gathered units policy report g c count) {cycle : List String} :
    (∃ component : Component, component.IsClass units ∧ component.selfLoop = true ∧
      component.members = cycle) ↔ ∃ name, LoneSelfInclude units name ∧ [name] = cycle := by
  constructor
  · rintro ⟨component, hclass, hloop, rfl⟩
    obtain ⟨name, hmembers, hincludes⟩ := hclass.selfLoop_iff.mp hloop
    have hname : name ∈ component.members := hmembers ▸ List.mem_singleton_self name
    exact ⟨name, ⟨hincludes, (hclass.members_eq_singleton_iff hname).mp hmembers⟩, hmembers.symm⟩
  · rintro ⟨name, ⟨hincludes, halone⟩, rfl⟩
    obtain ⟨component, hcomponent, hname⟩ :=
      h.represents.exists_component_of_known hincludes.known_source
    have hclass := h.represents.isClass hcomponent
    have hmembers := (hclass.members_eq_singleton_iff hname).mpr halone
    exact ⟨component, hclass, hclass.selfLoop_iff.mpr ⟨name, hmembers, hincludes⟩, hmembers⟩

/-- The policy decides about the list of cycles alone. -/
theorem eq_with_cycles (h : Gathered units policy report g c count)
    (h' : Gathered units policy' other g' c' count') :
    other = { report with cycles := other.cycles } := by
  obtain rfl : g = g' := Except.ok.inj (h.build_eq.symm.trans h'.build_eq)
  obtain rfl : c = c' := Except.ok.inj (h.condensed_eq.symm.trans h'.condensed_eq)
  have hplan := Except.ok.inj (h.plan_eq.symm.trans h'.plan_eq)
  obtain rfl := h.report_eq
  obtain rfl := h'.report_eq
  simp only [Report.gather, hplan]

/-- The policy adds a cycle of its own for every file that includes only itself. -/
theorem cycles_eq_of_policies (h : Gathered units .ignore report g c count)
    (h' : Gathered units .report other g' c' count') :
    ∃ lone : List String, lone.Nodup ∧ (∀ name, name ∈ lone ↔ LoneSelfInclude units name) ∧
      other.cycles = Text.sortNameLists (report.cycles ++ lone.map fun name => [name]) := by
  classical
  have hlone : ∀ name, name ∈ g.sortedFiles.filter (LoneSelfInclude units ·) ↔
      LoneSelfInclude units name := by
    intro name
    rw [List.mem_filter, decide_eq_true_eq, h.represents.mem_sortedFiles, and_iff_right_iff_imp]
    exact fun hloop => hloop.1.known_source
  have hnodup := h.represents.pairwise_sortedFiles.nodup.filter (LoneSelfInclude units ·)
  refine ⟨_, hnodup, hlone, ?_⟩
  apply Text.eq_sortNameLists_of_mem_iff h'.pairwise_cycles
  · refine List.nodup_append.mpr ⟨h.pairwise_cycles.nodup,
      hnodup.map List.singleton_injective, ?_⟩
    rintro cycle hcycle _ hsingle rfl
    obtain ⟨name, _, rfl⟩ := List.mem_map.mp hsingle
    obtain ⟨component, _, hreported, hmembers⟩ := h.mem_cycles_iff.mp hcycle
    simp [Component.isReported_iff, Component.isCycle_iff, hmembers] at hreported
  · intro cycle
    rw [List.mem_append, List.mem_map, h.mem_cycles_iff, h'.mem_cycles_iff]
    simp only [hlone, ← h.exists_selfLoop_iff, Component.isReported_iff]
    rw [← exists_or]
    exact exists_congr fun component => by simp [and_or_left, or_and_right]

end Gathered

/-- Self-includes show in the list of cycles alone.  Lists of units that differ in
self-includes only have the same plan, the same cycles of several files and the same entries
for their components, under any policies.  And reporting self-includes adds to the report of
one list a cycle for every file that includes itself and has no other cycle-mates, and
changes nothing else. -/
theorem analyze_selfIncludes (h : SameOtherIncludes units others)
    (hreport : analyze units policy = .ok report) (hother : analyze others policy' = .ok other) :
    (report.plan = other.plan ∧
      report.cycles.filter (1 < ·.length) = other.cycles.filter (1 < ·.length) ∧
      report.condensed.Perm other.condensed) ∧
    ∃ ignoring reporting, analyze units .ignore = .ok ignoring ∧
      analyze units .report = .ok reporting ∧
      reporting = { ignoring with cycles := reporting.cycles } ∧
      ∃ lone : List String, lone.Nodup ∧ (∀ name, name ∈ lone ↔ LoneSelfInclude units name) ∧
        reporting.cycles =
          Text.sortNameLists (ignoring.cycles ++ lone.map fun name => [name]) := by
  obtain ⟨g, c, count, hr⟩ := exists_gathered hreport
  obtain ⟨g', c', count', hr'⟩ := exists_gathered hother
  refine ⟨⟨h.plan_eq hr hr', h.filter_cycles_eq hr hr', h.condensed_perm hr hr'⟩, ?_⟩
  obtain ⟨ignoring, hignoring⟩ := exists_analyze_of_represents hr.build_eq hr.represents .ignore
  obtain ⟨reporting, hreporting⟩ := exists_analyze_of_represents hr.build_eq hr.represents .report
  obtain ⟨_, _, _, hi⟩ := exists_gathered hignoring
  obtain ⟨_, _, _, hr⟩ := exists_gathered hreporting
  exact ⟨ignoring, reporting, hignoring, hreporting, hi.eq_with_cycles hr,
    hi.cycles_eq_of_policies hr⟩

/-- The ring of two headers where neither header includes itself any more, but their
including file does. -/
def ringWithLoopMoved : List SourceUnit :=
  [⟨"main.c", ["main.c", "a.h", "log.h"]⟩, ⟨"a.h", ["b.h"]⟩, ⟨"b.h", ["a.h"]⟩, ⟨"log.h", []⟩]

theorem sameOtherIncludes_loopsAndRing : SameOtherIncludes loopsAndRing ringWithLoopMoved where
  known_iff name := by
    simp [Known, loopsAndRing, ringWithLoopMoved]
  includes_iff source target hne := by
    simp only [Includes, loopsAndRing, ringWithLoopMoved, List.exists_mem_cons_iff]
    grind

theorem analyze_selfIncludes_loopsAndRing : ∃ report other,
    analyze loopsAndRing .report = .ok report ∧ analyze ringWithLoopMoved .ignore = .ok other ∧
    report.plan = other.plan ∧
    report.cycles.filter (1 < ·.length) = other.cycles.filter (1 < ·.length) ∧
    report.condensed.Perm other.condensed := by
  obtain ⟨report, hreport⟩ := exists_analyze_of_known loopsAndRing .report (by decide)
  obtain ⟨other, hother⟩ := exists_analyze_of_known ringWithLoopMoved .ignore (by decide)
  obtain ⟨⟨hplan, hcycles, hcondensed⟩, _⟩ :=
    analyze_selfIncludes sameOtherIncludes_loopsAndRing hreport hother
  exact ⟨report, other, hreport, hother, hplan, hcycles, hcondensed⟩

end IncludeGraph
