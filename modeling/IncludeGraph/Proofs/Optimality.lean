import IncludeGraph.Proofs.Heights

/-!
# The staged plan is the earliest one

A chain of dependencies takes one stage for each of its components in every plan that
passes the check.  The staged plan gives a component no more stages than its longest
chain asks for, so that no other plan has a file in an earlier stage, and none has fewer
stages.
-/

namespace IncludeGraph

variable {units : List SourceUnit}

/-! ## Members of components -/

namespace Condensed.Condenses

variable {g : FileGraph} {c : Condensed}

/-- Every component has a file. -/
theorem exists_componentOf (h : c.Condenses g g.components) (i : Fin c.size) :
    ∃ name, c.componentOf name = some i := by
  obtain ⟨name, hname⟩ := List.exists_mem_of_ne_nil _
    (FileGraph.members_ne_nil (h.get_mem i))
  exact ⟨name, (h.componentOf_eq name i).mpr hname⟩

end Condensed.Condenses

namespace Plan

variable {g : FileGraph} {c : Condensed} {p q : Plan}

/-! ## A lower bound for every accepted plan -/

theorem Respects.exists_places (h : q.Respects units) {name : String}
    (hname : Known units name) : ∃ k, q.Places k name := by
  apply exists_places_iff.mpr
  rw [← List.count_pos_iff, h.once name hname]
  exact Nat.one_pos

/-- A plan that respects the units has a file no earlier than the chains of dependencies that
start at it are long. -/
theorem Respects.le_of_dependencyChain (h : q.Respects units) (hnodup : q.stages.flatten.Nodup)
    {k l : Nat} {name : String} (hplace : q.Places l name)
    (hchain : DependencyChain units k name) : k ≤ l := by
  induction k generalizing l name with
  | zero => exact Nat.zero_le l
  | succ k ih =>
      obtain ⟨source, target, hmates, hincludes, hapart, hrest⟩ := hchain
      have hname : Known units name := h.known name (exists_places_iff.mp ⟨l, hplace⟩)
      -- The include that leads to the next component starts at a cycle-mate of the file.
      obtain ⟨l', hname', hsource'⟩ := h.together name source hname hincludes.known_source hmates
      have hsame : l' = l := hname'.unique hnodup hplace
      obtain ⟨m, n, hm, hn, hlt⟩ := h.before source target hincludes hapart
      have hearlier : m = l := (hm.unique hnodup hsource').trans hsame
      have hle : k ≤ n := ih hn hrest
      omega

/-- A plan that respects the units has a file no earlier than the chains of components
that start at it are long. -/
theorem Respects.le_of_chain (h : q.Respects units) (hgraph : g.Represents units)
    (hc : c.Condenses g g.components) {k l : Nat} {i : Fin c.size} {name : String}
    (hname : c.componentOf name = some i) (hplace : q.Places l name)
    (hchain : c.links.Chain k i) : k ≤ l := by
  have hnodup : q.stages.flatten.Nodup := (h.flatten_perm hgraph).nodup_iff.mpr hgraph.nodup
  exact h.le_of_dependencyChain hnodup hplace ((hc.chain_iff hgraph hname).mp hchain)

/-- The stages of the levels of an acyclic condensed graph come no later than those of any
plan that respects the units. -/
theorem Respects.le_of_places_stageAt (h : q.Respects units) (hgraph : g.Represents units)
    (hc : c.Condenses g g.components) {count k l : Nat} {name : String}
    (hstaged : Places ⟨(List.range count).map (stageAt c)⟩ k name) (hplace : q.Places l name) :
    k ≤ l := by
  obtain ⟨_, i, hlongest, hname⟩ := (places_stageAt_iff hc).mp hstaged
  exact h.le_of_chain hgraph hc hname hplace hlongest.1

/-- A plan that respects the units has at least one stage for every level. -/
theorem Respects.le_length (h : q.Respects units) (hgraph : g.Represents units)
    (hc : c.Condenses g g.components) {count : Nat}
    (hlevels : ∀ d < count, c.links.level d ≠ []) : count ≤ q.stages.length := by
  cases count with
  | zero => exact Nat.zero_le _
  | succ d =>
      obtain ⟨i, hi⟩ := List.exists_mem_of_ne_nil _ (hlevels d (Nat.lt_succ_self d))
      obtain ⟨name, hname⟩ := hc.exists_componentOf i
      obtain ⟨l, hplace⟩ := h.exists_places (hc.known hgraph hname)
      have hle : d ≤ l := h.le_of_chain hgraph hc hname hplace (Digraph.mem_level.mp hi).1
      obtain ⟨stage, hstage, _⟩ := hplace
      obtain ⟨hlt, _⟩ := List.getElem?_eq_some_iff.mp hstage
      omega

end Plan

/-! ## The plan of a report -/

/-- The plan of a report is the earliest of all plans that the check accepts for the same
graph: each places every file, none of them in an earlier stage than the report does, and
none has fewer stages. -/
theorem plan_earliest {policy : SelfLoopPolicy} {report : Report}
    (hreport : analyze units policy = .ok report) :
    ∃ g c, FileGraph.build units = .ok g ∧ Condensed.ofComponents g g.components = .ok c ∧
      Plan.ofCondensed c = .ok report.plan ∧
      ∀ q : Plan, q.verify g c = .ok () →
        (∀ name, Known units name →
          (∃ k, report.plan.Places k name) ∧ ∃ l, q.Places l name) ∧
        (∀ name k l, report.plan.Places k name → q.Places l name → k ≤ l) ∧
        report.plan.stages.length ≤ q.stages.length := by
  obtain ⟨g, c, count, h⟩ := exists_gathered hreport
  obtain rfl := h.report_eq
  have hrespects : ∀ q : Plan, q.verify g c = .ok () → q.Respects units :=
    fun q => (Plan.verify_eq_ok_iff_respects h.represents h.condenses).mp
  refine ⟨g, c, h.build_eq, h.condensed_eq, h.plan_eq, fun q hq => ⟨?_, ?_, ?_⟩⟩
  · intro name hname
    exact ⟨(hrespects _ h.verify_eq).exists_places hname, (hrespects q hq).exists_places hname⟩
  · intro name k l hk hl
    exact (hrespects q hq).le_of_places_stageAt h.represents h.condenses hk hl
  · calc
      ((List.range count).map (Plan.stageAt c)).length = count := by simp
      _ ≤ q.stages.length := (hrespects q hq).le_length h.represents h.condenses h.level_ne_nil

/-- For the ring and its including file, the plan with an idle stage is accepted, and the
plan of the report is at least as early and as short. -/
theorem plan_earliest_ring : ∃ report, analyze Plan.ring .ignore = .ok report ∧
    (∃ k ≤ 2, report.plan.Places k "main.c") ∧ report.plan.stages.length ≤ 3 := by
  obtain ⟨report, hreport⟩ := exists_analyze_of_known Plan.ring .ignore (by decide)
  obtain ⟨g, c, hbuild, hcondensed, _, hearliest⟩ := plan_earliest hreport
  have hgraph := FileGraph.represents_of_build hbuild
  obtain ⟨c', hcondensed', hc⟩ := Condensed.ofComponents_components hgraph
  obtain rfl : c = c' := Except.ok.inj (hcondensed.symm.trans hcondensed')
  obtain ⟨hplaced, hle, hlength⟩ :=
    hearliest _ ((Plan.verify_eq_ok_iff_respects hgraph hc).mpr Plan.respects_ring)
  obtain ⟨k, hk⟩ := (hplaced "main.c" (by decide)).1
  exact ⟨report, hreport, ⟨k, hle "main.c" k 2 hk ⟨["main.c"], rfl, by decide⟩, hk⟩, hlength⟩

end IncludeGraph
