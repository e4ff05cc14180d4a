import IncludeGraph.Proofs.Analysis
import IncludeGraph.Proofs.Components

/-!
# The reported cycles

A report lists the classes of cycle-mates with more than one file and, if the policy asks
for them, the single files that include themselves.  Which classes these are can be said
file by file: a file is in a reported cycle if it has another cycle-mate, or if a chain of
one or more includes leads back to it.
-/

namespace IncludeGraph

variable {units : List SourceUnit} {policy : SelfLoopPolicy} {name : String}

/-- The files that a policy reports as being in a cycle. -/
def OnReportedCycle (units : List SourceUnit) : SelfLoopPolicy → String → Prop
  | .ignore, name => ∃ other, other ≠ name ∧ CycleMates units name other
  | .report, name => Relation.TransGen (Includes units) name name

/-- A chain of includes leads back to a file if it includes itself or has another
cycle-mate. -/
theorem transGen_includes_self_iff : Relation.TransGen (Includes units) name name ↔
    Includes units name name ∨ ∃ other, other ≠ name ∧ CycleMates units name other := by
  constructor
  · intro hback
    obtain ⟨next, hincludes, hrest⟩ := Relation.TransGen.head'_iff.mp hback
    by_cases hloop : next = name
    · exact .inl (hloop ▸ hincludes)
    · exact .inr ⟨next, hloop, .single hincludes, hrest⟩
  · rintro (hloop | ⟨other, hne, hforth, hback⟩)
    · exact .single hloop
    · rcases Relation.reflTransGen_iff_eq_or_transGen.mp hforth with heq | hchain
      · exact absurd heq hne
      · exact hchain.trans_left hback

namespace Component

variable {c : Component}

theorem isReported_iff : c.isReported policy = true ↔
    c.isCycle = true ∨ c.selfLoop = true ∧ policy = .report := by
  rw [isReported, Bool.or_eq_true, Bool.and_eq_true, beq_iff_eq]

namespace IsClass

/-- The mark of a class says whether its only file includes itself. -/
theorem selfLoop_iff_of_mem (h : c.IsClass units) (hname : name ∈ c.members) :
    c.selfLoop = true ↔ c.members = [name] ∧ Includes units name name := by
  rw [h.selfLoop_iff]
  constructor
  · rintro ⟨single, hmembers, hloop⟩
    rw [hmembers, List.mem_singleton] at hname
    exact hname ▸ ⟨hmembers, hloop⟩
  · exact fun hloop => ⟨name, hloop⟩

/-- A policy reports the class of a file exactly if it reports the file. -/
theorem isReported_iff_onReportedCycle (h : c.IsClass units) (hname : name ∈ c.members) :
    c.isReported policy = true ↔ OnReportedCycle units policy name := by
  have hcycle := h.isCycle_iff_exists_mate hname
  rw [isReported_iff, h.selfLoop_iff_of_mem hname]
  cases policy with
  | ignore => simpa [OnReportedCycle] using hcycle
  | report =>
      rw [OnReportedCycle, transGen_includes_self_iff, ← hcycle]
      by_cases hmates : c.isCycle = true
      · simp [hmates]
      · have hsingle : c.members = [name] :=
          not_not.mp (mt (h.isCycle_iff_ne_singleton hname).mpr hmates)
        simp [hmates, hsingle]

end IsClass

end Component

/-- Under every policy, a chain of includes leads from a reported file back to it. -/
theorem OnReportedCycle.transGen (h : OnReportedCycle units policy name) :
    Relation.TransGen (Includes units) name name := by
  cases policy with
  | ignore => exact transGen_includes_self_iff.mpr (.inr h)
  | report => exact h

theorem OnReportedCycle.known (h : OnReportedCycle units policy name) : Known units name := by
  obtain ⟨next, hincludes, _⟩ := Relation.TransGen.head'_iff.mp h.transGen
  exact hincludes.known_source

/-! ## The list of cycles -/

namespace Gathered

variable {report : Report} {g : FileGraph} {c : Condensed} {count : Nat}

/-- The cycles of a report are the reported classes. -/
theorem mem_cycles_iff (h : Gathered units policy report g c count) {cycle : List String} :
    cycle ∈ report.cycles ↔ ∃ component : Component, component.IsClass units ∧
      component.isReported policy = true ∧ component.members = cycle := by
  obtain rfl := h.report_eq
  change cycle ∈ Text.sortNameLists _ ↔ _
  rw [Text.mem_sortNameLists, List.mem_map]
  simp only [List.mem_filter, h.represents.mem_components_iff, and_assoc]

/-- A file is in a cycle of the report exactly if the policy reports it. -/
theorem exists_cycle_iff (h : Gathered units policy report g c count) :
    (∃ cycle ∈ report.cycles, name ∈ cycle) ↔ OnReportedCycle units policy name := by
  constructor
  · rintro ⟨cycle, hcycle, hname⟩
    obtain ⟨component, hclass, hreported, rfl⟩ := h.mem_cycles_iff.mp hcycle
    exact (hclass.isReported_iff_onReportedCycle hname).mp hreported
  · intro hreported
    obtain ⟨component, hcomponent, hname⟩ :=
      h.represents.exists_component_of_known hreported.known
    have hclass := h.represents.isClass hcomponent
    refine ⟨component.members, h.mem_cycles_iff.mpr ⟨component, hclass, ?_, rfl⟩, hname⟩
    exact (hclass.isReported_iff_onReportedCycle hname).mpr hreported

/-- The cycles of a report are strictly sorted. -/
theorem pairwise_cycles (h : Gathered units policy report g c count) :
    report.cycles.Pairwise (· < ·) := by
  have hreported : (g.components.filter (·.isReported policy)).Sublist g.components :=
    List.filter_sublist
  have hsorted := Text.pairwise_sortNameLists
    ((FileGraph.nodup_map_members h.represents.nodup).sublist (hreported.map _))
  obtain rfl := h.report_eq
  exact hsorted

end Gathered

/-- The cycles of a report are exactly right: a file is in one of them if and only if the
policy reports it, each of them is the sorted list of all cycle-mates of any of its files, no
two of them share a file, and they are listed in strict order. -/
theorem cycles_exact {report : Report} (hreport : analyze units policy = .ok report) :
    (∀ name, (∃ cycle ∈ report.cycles, name ∈ cycle) ↔ OnReportedCycle units policy name) ∧
      (∀ cycle ∈ report.cycles, cycle ≠ [] ∧ cycle.Pairwise (· < ·) ∧
        ∀ name ∈ cycle, ∀ other, other ∈ cycle ↔ CycleMates units name other) ∧
      report.cycles.Pairwise List.Disjoint ∧ report.cycles.Pairwise (· < ·) := by
  obtain ⟨g, c, count, h⟩ := exists_gathered hreport
  refine ⟨fun name => h.exists_cycle_iff, ?_, ?_, h.pairwise_cycles⟩
  · intro cycle hcycle
    obtain ⟨component, hclass, _, rfl⟩ := h.mem_cycles_iff.mp hcycle
    exact ⟨hclass.ne_nil, hclass.sorted, fun name hname other => hclass.mem_iff_cycleMates hname⟩
  · refine h.pairwise_cycles.imp_of_mem fun {cycle other} hcycle hother hlt name hname hname' => ?_
    obtain ⟨component, hclass, _, rfl⟩ := h.mem_cycles_iff.mp hcycle
    obtain ⟨another, hclass', _, rfl⟩ := h.mem_cycles_iff.mp hother
    obtain rfl := hclass.eq_of_mem hclass' hname hname'
    exact lt_irrefl _ hlt

/-- A ring of two headers, one of which includes itself too, and a header that includes only
itself. -/
def loopsAndRing : List SourceUnit :=
  [⟨"main.c", ["a.h", "log.h"]⟩, ⟨"a.h", ["a.h", "b.h"]⟩, ⟨"b.h", ["a.h"]⟩, ⟨"log.h", ["log.h"]⟩]

/-- The ring is a cycle under both policies, the header that includes only itself under one,
and its including file under none. -/
theorem cycles_exact_loopsAndRing :
    (∃ report, analyze loopsAndRing .ignore = .ok report ∧
      (∃ cycle ∈ report.cycles, "a.h" ∈ cycle ∧ "b.h" ∈ cycle) ∧
      ¬ ∃ cycle ∈ report.cycles, "log.h" ∈ cycle) ∧
    ∃ report, analyze loopsAndRing .report = .ok report ∧
      (∃ cycle ∈ report.cycles, "log.h" ∈ cycle) ∧
      ¬ ∃ cycle ∈ report.cycles, "main.c" ∈ cycle := by
  have hring : CycleMates loopsAndRing "a.h" "b.h" :=
    ⟨.single (by decide : Includes loopsAndRing "a.h" "b.h"),
      .single (by decide : Includes loopsAndRing "b.h" "a.h")⟩
  have hlog : ∀ other, DependsOn loopsAndRing "log.h" other → other = "log.h" := by
    intro other hchain
    induction hchain with
    | refl => rfl
    | tail _ hincludes ih =>
        subst ih
        simpa [Includes, loopsAndRing] using hincludes
  have hmain : ¬ Relation.TransGen (Includes loopsAndRing) "main.c" "main.c" := by
    intro hback
    obtain ⟨_, _, hlast⟩ := Relation.TransGen.tail'_iff.mp hback
    simp [Includes, loopsAndRing] at hlast
  refine ⟨?_, ?_⟩
  · obtain ⟨report, hreport⟩ := exists_analyze_of_known loopsAndRing .ignore (by decide)
    obtain ⟨hfiles, hmembers, _⟩ := cycles_exact hreport
    obtain ⟨cycle, hcycle, ha⟩ := (hfiles "a.h").mpr ⟨"b.h", by decide, hring⟩
    refine ⟨report, hreport, ⟨cycle, hcycle, ha, ?_⟩, ?_⟩
    · exact ((hmembers cycle hcycle).2.2 "a.h" ha "b.h").mpr hring
    · rw [hfiles]
      rintro ⟨other, hne, hforth, _⟩
      exact hne (hlog other hforth)
  · obtain ⟨report, hreport⟩ := exists_analyze_of_known loopsAndRing .report (by decide)
    obtain ⟨hfiles, _⟩ := cycles_exact hreport
    refine ⟨report, hreport, (hfiles "log.h").mpr ?_, mt (hfiles "main.c").mp hmain⟩
    exact .single (by decide : Includes loopsAndRing "log.h" "log.h")

end IncludeGraph
