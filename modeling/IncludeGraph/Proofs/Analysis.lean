import IncludeGraph.Report
import IncludeGraph.Proofs.Staging
import IncludeGraph.Proofs.Verification

/-!
# Analyzing a list of units

The parts of an analysis fit together: the components of the graph of a list of units
can be condensed, the condensed graph can be staged, and the staged plan passes every
check.  The only failure is an include that names no unit.
-/

namespace IncludeGraph

/-! ## Staged plans pass the check -/

namespace Plan

variable {g : FileGraph} {c : Condensed}

/-- A stage lists the files of the components of its level. -/
theorem places_stageAt_iff {count k : Nat} {file : String} {components : List Component}
    (hc : c.Condenses g components) :
    Places ⟨(List.range count).map (stageAt c)⟩ k file ↔
      k < count ∧ ∃ v, c.links.LongestChain v k ∧ c.componentOf file = some v := by
  have hmem : file ∈ stageAt c k ↔
      ∃ v, c.links.LongestChain v k ∧ c.componentOf file = some v := by
    rw [(stageAt_perm c k).mem_iff, List.mem_flatMap]
    simp only [Digraph.mem_level, hc.componentOf_eq]
  rw [← hmem]
  constructor
  · rintro ⟨stage, hstage, hfile⟩
    obtain ⟨hk, rfl⟩ := getElem?_stages.mp hstage
    exact ⟨hk, hfile⟩
  · rintro ⟨hk, hfile⟩
    exact ⟨stageAt c k, getElem?_stages.mpr ⟨hk, rfl⟩, hfile⟩

/-- The levels of an acyclic condensed graph order the ends of every include. -/
theorem orders_stages {components : List Component} (hc : c.Condenses g components)
    {count : Nat} (hend : ∀ v, ¬ c.links.Chain count v) {u v : Fin g.size}
    (hadj : g.links.Adj u v) {i j : Fin c.size} (hi : c.componentOf (g.names.get u) = some i)
    (hj : c.componentOf (g.names.get v) = some j) :
    Orders ⟨(List.range count).map (stageAt c)⟩ c (g.names.get u) (g.names.get v) := by
  obtain ⟨k, hk, hlongest⟩ := Digraph.exists_longestChain_of_not_chain (hend i)
  obtain ⟨l, hl, hlower⟩ := Digraph.exists_longestChain_of_not_chain (hend j)
  refine ⟨k, l, (places_stageAt_iff hc).mpr ⟨hk, i, hlongest, hi⟩,
    (places_stageAt_iff hc).mpr ⟨hl, j, hlower, hj⟩, ?_⟩
  by_cases heq : i = j
  · subst heq
    rw [hi, hj, if_pos rfl]
    exact hlongest.unique hlower
  · rw [hi, hj, if_neg (mt Option.some.inj heq)]
    exact hlongest.lt_of_adj hlower ((hc.adj_iff i j).mpr ⟨heq, u, v, hadj, hi, hj⟩)

/-- Staging a condensed graph without cycles gives a plan that passes every check. -/
theorem verify_ofCondensed {components : List Component} (hc : c.Condenses g components)
    (hnodup : g.names.toList.Nodup)
    (hpartition : (components.flatMap (·.members)).Perm g.names.toList)
    (hacyclic : ¬ c.links.HasCycle) :
    ∃ p, ofCondensed c = .ok p ∧ p.verify g c = .ok () := by
  obtain ⟨count, hok, _, hend⟩ := ofCondensed_of_acyclic c hacyclic
  refine ⟨_, hok, (verify_eq_ok_iff hnodup).mpr ⟨?_, ?_⟩⟩
  · have hmembers := hc.toList_eq ▸ flatten_stages_perm hend
    exact hmembers.trans hpartition
  · intro pair hpair
    obtain ⟨e, hadj, rfl⟩ := List.mem_map.mp hpair
    have hplaced : ∀ v, ∃ i, c.componentOf (g.names.get v) = some i := by
      intro v
      rw [hc.exists_componentOf_iff, hpartition.mem_iff, mem_toList_iff_get]
      exact ⟨v, rfl⟩
    obtain ⟨i, hi⟩ := hplaced e.1
    obtain ⟨j, hj⟩ := hplaced e.2
    exact orders_stages hc hend (Array.mem_toList_iff.mp hadj) hi hj

end Plan

/-! ## The analysis -/

variable {units : List SourceUnit}

/-- A list of units whose includes are all known has a report. -/
theorem exists_analyze_of_represents {g : FileGraph} (hbuild : FileGraph.build units = .ok g)
    (hgraph : g.Represents units) (policy : SelfLoopPolicy) :
    ∃ report, analyze units policy = .ok report := by
  obtain ⟨c, hcondensed, hc⟩ := Condensed.ofComponents_components hgraph
  obtain ⟨p, hplan, hverify⟩ := Plan.verify_ofCondensed hc hgraph.nodup
    g.members_components_perm (hc.not_hasCycle hgraph)
  refine ⟨Report.gather g (findCycles g.components policy) c p, ?_⟩
  rw [analyze, hbuild, ok_bind]
  simp only [hcondensed, hplan, hverify, ok_bind]
  rfl

/-- An analysis ends with a report or with the first unknown include. -/
theorem analyze_ok_or_unknown (units : List SourceUnit) (policy : SelfLoopPolicy) :
    (∃ report, analyze units policy = .ok report) ∧
        (∀ unit ∈ units, ∀ name ∈ unit.includes, Known units name) ∨
      ∃ source target, FirstUnknown units source target ∧
        analyze units policy = .error (.unknownDependency source target) := by
  rcases FileGraph.build_ok_or_unknown units with
    ⟨g, hbuild, hgraph⟩ | ⟨source, target, hunknown, herror⟩
  · obtain ⟨report, hreport⟩ := exists_analyze_of_represents hbuild hgraph policy
    refine .inl ⟨⟨report, hreport⟩, fun unit hunit name hname => ?_⟩
    exact hgraph.known unit.name name ⟨unit, hunit, rfl, hname⟩
  · refine .inr ⟨source, target, hunknown, ?_⟩
    rw [analyze, herror, error_bind]

theorem exists_analyze_of_known (units : List SourceUnit) (policy : SelfLoopPolicy)
    (hall : ∀ unit ∈ units, ∀ name ∈ unit.includes, Known units name) :
    ∃ report, analyze units policy = .ok report := by
  obtain ⟨g, hbuild⟩ := FileGraph.exists_build_of_known units hall
  exact exists_analyze_of_represents hbuild (FileGraph.represents_of_build hbuild) policy

/-- What a report has been gathered from: the graph of the units, the condensed graph of its
components, and the plan with one stage for each of `count` levels. -/
structure Gathered (units : List SourceUnit) (policy : SelfLoopPolicy) (report : Report)
    (g : FileGraph) (c : Condensed) (count : Nat) : Prop where
  build_eq : FileGraph.build units = .ok g
  represents : g.Represents units
  condensed_eq : Condensed.ofComponents g g.components = .ok c
  condenses : c.Condenses g g.components
  plan_eq : Plan.ofCondensed c = .ok ⟨(List.range count).map (Plan.stageAt c)⟩
  level_ne_nil : ∀ d < count, c.links.level d ≠ []
  not_chain : ∀ v, ¬ c.links.Chain count v
  verify_eq : Plan.verify ⟨(List.range count).map (Plan.stageAt c)⟩ g c = .ok ()
  report_eq : report = Report.gather g (findCycles g.components policy) c
    ⟨(List.range count).map (Plan.stageAt c)⟩

theorem exists_gathered {policy : SelfLoopPolicy} {report : Report}
    (hreport : analyze units policy = .ok report) :
    ∃ g c count, Gathered units policy report g c count := by
  simp only [analyze, bind_eq_ok_iff, pure, Except.pure, Except.ok.injEq] at hreport
  obtain ⟨g, hbuild, c, hcondensed, p, hplan, _, hverify, hgather⟩ := hreport
  have hgraph := FileGraph.represents_of_build hbuild
  obtain ⟨c', hcondensed', hc⟩ := Condensed.ofComponents_components hgraph
  obtain rfl : c = c' := Except.ok.inj (hcondensed.symm.trans hcondensed')
  obtain ⟨count, hstaged, hlevels, hend⟩ := Plan.ofCondensed_of_acyclic c (hc.not_hasCycle hgraph)
  obtain rfl : p = _ := Except.ok.inj (hplan.symm.trans hstaged)
  exact ⟨g, c, count, {
    build_eq := hbuild
    represents := hgraph
    condensed_eq := hcondensed
    condenses := hc
    plan_eq := hstaged
    level_ne_nil := hlevels
    not_chain := hend
    verify_eq := hverify
    report_eq := hgather.symm
  }⟩

/-- An analysis succeeds exactly if every include of every unit is the name of a unit.
Otherwise it reports the first include that is not.  Its own checks never fail. -/
theorem analyze_complete (units : List SourceUnit) (policy : SelfLoopPolicy) :
    ((∃ report, analyze units policy = .ok report) ↔
        ∀ unit ∈ units, ∀ name ∈ unit.includes, Known units name) ∧
      (∀ source target, analyze units policy = .error (.unknownDependency source target) ↔
        FirstUnknown units source target) ∧
      ∀ violation, analyze units policy ≠ .error (.invariantViolation violation) := by
  rcases analyze_ok_or_unknown units policy with
    ⟨⟨report, hok⟩, hall⟩ | ⟨source, target, hunknown, herror⟩
  · refine ⟨⟨fun _ => hall, fun _ => ⟨report, hok⟩⟩, fun source target => ?_, ?_⟩
    · rw [hok]
      constructor
      · intro herror
        cases herror
      · intro hunknown
        exact absurd hall hunknown.not_all_known
    · intro violation herror
      rw [hok] at herror
      cases herror
  · rw [herror]
    refine ⟨⟨?_, fun hall => ?_⟩, fun source' target' => ?_, ?_⟩
    · rintro ⟨report, hok⟩
      cases hok
    · exact absurd hall hunknown.not_all_known
    · constructor
      · intro hother
        cases hother
        exact hunknown
      · intro hother
        obtain ⟨rfl, rfl⟩ := hunknown.unique hother
        rfl
    · intro violation hother
      cases hother

end IncludeGraph
