import IncludeGraph.Proofs.Collection
import IncludeGraph.Proofs.Cycles
import IncludeGraph.Proofs.Labels
import IncludeGraph.Proofs.Neighbours

/-!
# Files that are no headers

Only headers can be included, and whether a file is a header is decided by its name alone, so that
no other file of the same name makes a difference.  Nothing leads to a file that is no header, not
even an include of its own name in its own text.  It has no dependents, is a component of its own
and in no cycle, whatever the policy.
-/

namespace IncludeGraph

/-! ## Files that nothing includes -/

section Unincluded

variable {units : List SourceUnit} {policy : SelfLoopPolicy} {name : String}

/-- No unit includes the name. -/
def Unincluded (units : List SourceUnit) (name : String) : Prop :=
  ∀ source, ¬ Includes units source name

namespace Unincluded

/-- The last include on a way from one file to another is an include of the latter. -/
theorem eq_of_dependsOn (h : Unincluded units name) {other : String}
    (hdepends : DependsOn units other name) : other = name := by
  rcases hdepends.cases_tail with heq | ⟨last, _, hincludes⟩
  · exact heq.symm
  · exact absurd hincludes (h last)

theorem not_onReportedCycle (h : Unincluded units name) : ¬ OnReportedCycle units policy name := by
  intro hcycle
  obtain ⟨last, _, hincludes⟩ := Relation.TransGen.tail'_iff.mp hcycle.transGen
  exact h last hincludes

/-- The class of the file has no other file. -/
theorem members_eq (h : Unincluded units name) {component : Component}
    (hclass : component.IsClass units) (hname : name ∈ component.members) :
    component.members = [name] := by
  apply (hclass.members_eq_singleton_iff hname).mpr
  intro other hmates
  exact h.eq_of_dependsOn hmates.2

end Unincluded

/-- What a report says about a file that stands alone: its list of dependents is empty, the
condensed list has an entry for it and none for it and other files, and it is in no cycle. -/
structure Report.Alone (report : Report) (name : String) : Prop where
  dependents_eq : ∀ names, (name, names) ∈ report.dependents ↔ names = []
  exists_entry : ∃ entry ∈ report.condensed, entry.members = [name]
  members_eq : ∀ entry ∈ report.condensed, name ∈ entry.members → entry.members = [name]
  not_mem_cycles : ∀ cycle ∈ report.cycles, name ∉ cycle

namespace Gathered

variable {report : Report} {g : FileGraph} {c : Condensed} {count : Nat}

/-- Every entry lists the files of a class. -/
theorem exists_class (h : Gathered units policy report g c count) {entry : CondensedEntry}
    (hentry : entry ∈ report.condensed) :
    ∃ component : Component, component.IsClass units ∧ entry.members = component.members := by
  obtain rfl := h.report_eq
  obtain ⟨i, rfl⟩ := Report.mem_condensedEntries.mp hentry
  refine ⟨c.components.get i, h.represents.isClass ?_, rfl⟩
  rw [← h.condenses.toList_eq, mem_toList_iff_get]
  exact ⟨i, rfl⟩

/-- A file that nothing includes stands alone in the report. -/
theorem alone_of_unincluded (h : Gathered units policy report g c count) (hknown : Known units name)
    (hname : Unincluded units name) : report.Alone name where
  dependents_eq names := by
    rw [h.isListing_dependents.mem_iff]
    constructor
    · rintro ⟨_, _, hnames⟩
      apply List.eq_nil_iff_forall_not_mem.mpr
      intro other hother
      exact hname other ((hnames other).mp hother)
    · rintro rfl
      refine ⟨hknown, .nil, fun other => ?_⟩
      exact iff_of_false List.not_mem_nil (hname other)
  exists_entry := by
    obtain ⟨component, hcomponent, hmem⟩ := h.represents.exists_component_of_known hknown
    have hclass := h.represents.isClass hcomponent
    obtain ⟨entry, hentry, _, hmembers⟩ := h.exists_entry hclass
    exact ⟨entry, hentry, hmembers.trans (hname.members_eq hclass hmem)⟩
  members_eq entry hentry hmem := by
    obtain ⟨component, hclass, hmembers⟩ := h.exists_class hentry
    rw [hmembers] at hmem ⊢
    exact hname.members_eq hclass hmem
  not_mem_cycles cycle hcycle hmem :=
    hname.not_onReportedCycle (h.exists_cycle_iff.mp ⟨cycle, hcycle, hmem⟩)

end Gathered

end Unincluded

/-! ## Collected files -/

theorem FoundFile.hasExtension_eq {file other : FoundFile} (hname : file.name = other.name)
    (isKind : String → Bool) : file.hasExtension isKind = other.hasExtension isKind := by
  rw [hasExtension, hasExtension, hname]

namespace Collection

variable {config : CollectConfig} {files : List FoundFile}

/-- Nothing includes a file that is no header. -/
theorem unincluded_of_not_header {file : FoundFile}
    (hfile : ¬ file.hasExtension config.isHeaderExtension = true) :
    Unincluded (units config files) file.name := by
  intro source hincludes
  obtain ⟨unit, hunit, _, htarget⟩ := hincludes
  obtain ⟨header, _, hextension, hname⟩ := exists_header_of_mem_includes hunit htarget
  exact hfile (FoundFile.hasExtension_eq hname _ ▸ hextension)

/-- Collected files have a report, and each of them that is no header stands alone in it. -/
theorem alone_of_not_header (config : CollectConfig) (files : List FoundFile)
    (policy : SelfLoopPolicy) :
    ∃ report, analyze (units config files) policy = .ok report ∧
      ∀ file ∈ files, ¬ file.hasExtension config.isHeaderExtension = true →
        report.Alone file.name := by
  obtain ⟨report, hreport⟩ := exists_analyze config files policy
  obtain ⟨g, c, count, h⟩ := exists_gathered hreport
  refine ⟨report, hreport, fun file hfile hkind => ?_⟩
  exact h.alone_of_unincluded (known_units.mpr ⟨file, hfile, rfl⟩) (unincluded_of_not_header hkind)

/-- A source that includes a header and itself. -/
def includesItself : FoundFile :=
  ⟨["src"], "main.c", some "#include \"a.h\"\n#include \"main.c\"\n".toUTF8⟩

/-- A source of the same name that includes itself, too. -/
def includesNamesake : FoundFile := ⟨["test"], "main.c", some "#include \"main.c\"\n".toUTF8⟩

theorem alone_of_not_header_namesakes : ∃ report,
    analyze (units .default [foundHeader, includesItself, includesNamesake]) .report = .ok report ∧
      report.Alone "main.c" := by
  obtain ⟨report, hreport, halone⟩ :=
    alone_of_not_header .default [foundHeader, includesItself, includesNamesake] .report
  exact ⟨report, hreport, halone includesItself (by simp) (by decide)⟩

end Collection

end IncludeGraph
