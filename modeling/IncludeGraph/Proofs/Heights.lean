import Mathlib.Data.List.GetD
import IncludeGraph.Proofs.Analysis
import IncludeGraph.Proofs.Components

/-!
# The stage of a file

A dependency leads from a file to one that a cycle-mate of it includes and that is no
cycle-mate itself.  The height of a file is the number of dependencies on its longest chain
of them, said in terms of names and includes.  The plan of a report gives every file the
stage of its height.
-/

namespace IncludeGraph

variable {units : List SourceUnit} {policy : SelfLoopPolicy} {name : String} {k : Nat}

/-- A chain of `k` dependencies starts at the file. -/
def DependencyChain (units : List SourceUnit) : Nat → String → Prop
  | 0, _ => True
  | k + 1, name => ∃ source target, CycleMates units name source ∧
      Includes units source target ∧ ¬ CycleMates units source target ∧
        DependencyChain units k target

/-- The longest chain of dependencies that starts at the file has `k` of them. -/
structure Height (units : List SourceUnit) (name : String) (k : Nat) : Prop where
  known : Known units name
  chain : DependencyChain units k name
  not_chain : ¬ DependencyChain units (k + 1) name

namespace Condensed.Condenses

variable {g : FileGraph} {c : Condensed} {i : Fin c.size}

/-- A chain of edges between components is a chain of dependencies of any of their files. -/
theorem chain_iff (h : c.Condenses g g.components) (hgraph : g.Represents units)
    (hname : c.componentOf name = some i) :
    c.links.Chain k i ↔ DependencyChain units k name := by
  induction k generalizing i name with
  | zero => exact Iff.rfl
  | succ k ih =>
      constructor
      · rintro ⟨j, hadj, hrest⟩
        obtain ⟨hne, source, target, hincludes, hsource, htarget⟩ :=
          (h.adj_iff_includes hgraph).mp hadj
        have hmates := ((h.componentOf_eq_some_iff hgraph hname).mp hsource).2
        refine ⟨source, target, hmates, hincludes, fun hshared => hne ?_, (ih htarget).mp hrest⟩
        rw [← h.componentOf_eq_iff hgraph (h.known hgraph hsource) (h.known hgraph htarget),
          hsource, htarget] at hshared
        exact Option.some.inj hshared
      · rintro ⟨source, target, hmates, hincludes, hapart, hrest⟩
        have hsource : c.componentOf source = some i :=
          (h.componentOf_eq_some_iff hgraph hname).mpr ⟨hincludes.known_source, hmates⟩
        obtain ⟨j, htarget⟩ := (h.exists_componentOf_iff_known hgraph).mpr
          (hgraph.known source target hincludes)
        refine ⟨j, (h.adj_iff_includes hgraph).mpr ⟨?_, source, target, hincludes, hsource,
          htarget⟩, (ih htarget).mpr hrest⟩
        rintro rfl
        exact hapart ((h.componentOf_eq_some_iff hgraph hsource).mp htarget).2

/-- The height of a file is the longest chain of its component. -/
theorem height_iff (h : c.Condenses g g.components) (hgraph : g.Represents units)
    (hname : c.componentOf name = some i) : Height units name k ↔ c.links.LongestChain i k := by
  rw [Digraph.longestChain_iff, h.chain_iff hgraph hname, h.chain_iff hgraph hname]
  constructor
  · rintro ⟨-, hchain, hend⟩
    exact ⟨hchain, hend⟩
  · rintro ⟨hchain, hend⟩
    exact ⟨h.known hgraph hname, hchain, hend⟩

end Condensed.Condenses

namespace Plan

theorem places_iff_mem_getD {p : Plan} : p.Places k name ↔ name ∈ p.stages.getD k [] := by
  rw [Places, List.getD_eq_getElem?_getD]
  cases p.stages[k]? with
  | none => simp
  | some stage => simp

end Plan

/-! ## The stages of a report -/

namespace Gathered

variable {report : Report} {g : FileGraph} {c : Condensed} {count : Nat}

/-- The plan of a report has a file in the stage of its height. -/
theorem places_iff (h : Gathered units policy report g c count) :
    report.plan.Places k name ↔ Height units name k := by
  obtain rfl := h.report_eq
  refine (Plan.places_stageAt_iff h.condenses).trans ?_
  constructor
  · rintro ⟨_, i, hlongest, hname⟩
    exact (h.condenses.height_iff h.represents hname).mpr hlongest
  · intro hheight
    obtain ⟨i, hname⟩ :=
      (h.condenses.exists_componentOf_iff_known h.represents).mpr hheight.known
    have hlongest := (h.condenses.height_iff h.represents hname).mp hheight
    refine ⟨?_, i, hlongest, hname⟩
    by_contra hlate
    exact h.not_chain i (hlongest.1.of_le (Nat.le_of_not_lt hlate))

theorem exists_height (h : Gathered units policy report g c count) (hname : Known units name) :
    ∃ k, Height units name k := by
  obtain ⟨i, hi⟩ := (h.condenses.exists_componentOf_iff_known h.represents).mpr hname
  obtain ⟨k, _, hlongest⟩ := Digraph.exists_longestChain_of_not_chain (h.not_chain i)
  exact ⟨k, (h.condenses.height_iff h.represents hi).mpr hlongest⟩

/-- The plan of a report has a file in no other stage. -/
theorem height_unique (h : Gathered units policy report g c count) {l : Nat}
    (hk : Height units name k) (hl : Height units name l) : k = l := by
  obtain ⟨i, hi⟩ := (h.condenses.exists_componentOf_iff_known h.represents).mpr hk.known
  rw [h.condenses.height_iff h.represents hi] at hk hl
  exact hk.unique hl

theorem mem_stage_iff (h : Gathered units policy report g c count) :
    name ∈ report.plan.stages.getD k [] ↔ Height units name k := by
  rw [← Plan.places_iff_mem_getD, h.places_iff]

theorem nodup_flatten_stages (h : Gathered units policy report g c count) :
    report.plan.stages.flatten.Nodup := by
  obtain ⟨hperm, _⟩ := (Plan.verify_eq_ok_iff h.represents.nodup).mp h.verify_eq
  obtain rfl := h.report_eq
  exact hperm.nodup_iff.mpr h.represents.nodup

/-- Every stage is strictly sorted. -/
theorem pairwise_stage (h : Gathered units policy report g c count) {stage : List String}
    (hstage : stage ∈ report.plan.stages) : stage.Pairwise (· < ·) := by
  have hdistinct : stage.Nodup := (List.nodup_flatten.mp h.nodup_flatten_stages).1 stage hstage
  obtain rfl := h.report_eq
  obtain ⟨d, _, rfl⟩ := List.mem_map.mp hstage
  have hsorted : (Plan.stageAt c d).Pairwise (· ≤ ·) := Text.pairwise_sortNames _
  exact (hsorted.and hdistinct).imp fun hpair => lt_of_le_of_ne hpair.1 hpair.2

theorem pairwise_getD_stage (h : Gathered units policy report g c count) (k : Nat) :
    (report.plan.stages.getD k []).Pairwise (· < ·) := by
  by_cases hk : k < report.plan.stages.length
  · rw [List.getD_eq_getElem _ _ hk]
    exact h.pairwise_stage (List.getElem_mem hk)
  · rw [List.getD_eq_default _ _ (Nat.le_of_not_lt hk)]
    exact .nil

/-- There is a stage for every height that some file has. -/
theorem lt_length_stages_iff (h : Gathered units policy report g c count) :
    k < report.plan.stages.length ↔ ∃ name, Height units name k := by
  constructor
  · intro hk
    obtain rfl := h.report_eq
    have hlevel : k < count := by simpa [Report.gather] using hk
    obtain ⟨i, hi⟩ := List.exists_mem_of_ne_nil _ (h.level_ne_nil k hlevel)
    obtain ⟨name, hname⟩ := List.exists_mem_of_ne_nil _
      (FileGraph.members_ne_nil (h.condenses.get_mem i))
    refine ⟨name, (h.condenses.height_iff h.represents ?_).mpr (Digraph.mem_level.mp hi)⟩
    exact (h.condenses.componentOf_eq name i).mpr hname
  · rintro ⟨name, hheight⟩
    obtain ⟨stage, hstage, _⟩ := h.places_iff.mpr hheight
    exact (List.getElem?_eq_some_iff.mp hstage).1

end Gathered

end IncludeGraph
