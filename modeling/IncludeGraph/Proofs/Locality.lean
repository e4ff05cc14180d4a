import IncludeGraph.Proofs.Cycles
import IncludeGraph.Proofs.Heights

/-!
# What a file depends on decides its place

The stage of a file and the cycle that it is in can be told from the includes of the files
that it reaches.  Two lists of units in which these files have the same includes agree on
both, whatever else the lists contain.
-/

namespace IncludeGraph

variable {units others : List SourceUnit} {file name : String} {k : Nat}

/-- All files that the file depends on have the same includes in both lists of units. -/
def AgreeFrom (units others : List SourceUnit) (file : String) : Prop :=
  ∀ name, DependsOn units file name → ∀ target,
    Includes units name target ↔ Includes others name target

namespace AgreeFrom

theorem of_dependsOn (h : AgreeFrom units others file) (hname : DependsOn units file name) :
    AgreeFrom units others name :=
  fun next hnext => h next (hname.trans hnext)

/-- Chains of includes from the file are the same in both lists. -/
theorem dependsOn_iff (h : AgreeFrom units others file) :
    DependsOn units file name ↔ DependsOn others file name := by
  constructor
  · intro hchain
    induction hchain with
    | refl => exact .refl
    | tail hfirst hlast ih => exact ih.tail ((h _ hfirst _).mp hlast)
  · intro hchain
    induction hchain with
    | refl => exact .refl
    | tail _ hlast ih => exact ih.tail ((h _ ih _).mpr hlast)

theorem symm (h : AgreeFrom units others file) : AgreeFrom others units file :=
  fun name hname target => (h name (h.dependsOn_iff.mpr hname) target).symm

theorem cycleMates_iff (h : AgreeFrom units others file) :
    CycleMates units file name ↔ CycleMates others file name := by
  constructor
  · rintro ⟨hforth, hback⟩
    exact ⟨h.dependsOn_iff.mp hforth, (h.of_dependsOn hforth).dependsOn_iff.mp hback⟩
  · rintro ⟨hforth, hback⟩
    have hreached := h.dependsOn_iff.mpr hforth
    exact ⟨hreached, (h.of_dependsOn hreached).dependsOn_iff.mpr hback⟩

/-- Every link of a chain of dependencies lies among the files that the first one reaches. -/
theorem dependencyChain_iff (h : AgreeFrom units others file) :
    DependencyChain units k file ↔ DependencyChain others k file := by
  induction k generalizing file with
  | zero => exact Iff.rfl
  | succ k ih =>
      refine exists_congr fun source => exists_congr fun target => ?_
      rw [← h.cycleMates_iff]
      apply and_congr_right
      intro hmates
      have hsource := h.of_dependsOn hmates.1
      rw [hsource source .refl target, hsource.cycleMates_iff]
      apply and_congr_right
      intro hincludes
      have htarget : DependsOn units source target :=
        .single ((hsource source .refl target).mpr hincludes)
      rw [ih (hsource.of_dependsOn htarget)]

theorem height_iff (h : AgreeFrom units others file) (hfile : Known units file)
    (hfile' : Known others file) : Height units file k ↔ Height others file k := by
  constructor
  · rintro ⟨-, hchain, hend⟩
    exact ⟨hfile', h.dependencyChain_iff.mp hchain, mt h.dependencyChain_iff.mpr hend⟩
  · rintro ⟨-, hchain, hend⟩
    exact ⟨hfile, h.dependencyChain_iff.mpr hchain, mt h.dependencyChain_iff.mp hend⟩

/-- A class of cycle-mates with the file is one in the other list too. -/
theorem isClass {component : Component} (h : AgreeFrom units others file)
    (hfile' : Known others file) (hmember : file ∈ component.members)
    (hclass : component.IsClass units) : component.IsClass others where
  ne_nil := hclass.ne_nil
  sorted := hclass.sorted
  mem_iff name hname other := by
    have hmates := (hclass.mem_iff_cycleMates hmember).mp hname
    have hagree := h.of_dependsOn hmates.1
    rw [hclass.mem_iff_cycleMates hname, hagree.cycleMates_iff, iff_and_self]
    exact fun hother => hother.known ((h.cycleMates_iff.mp hmates).known hfile')
  selfLoop_iff := by
    rw [hclass.selfLoop_iff_of_mem hmember, h file .refl file]
    constructor
    · exact fun hloop => ⟨file, hloop⟩
    · rintro ⟨name, hmembers, hloop⟩
      rw [hmembers, List.mem_singleton] at hmember
      exact hmember ▸ ⟨hmembers, hloop⟩

theorem isClass_iff {component : Component} (h : AgreeFrom units others file)
    (hfile : Known units file) (hfile' : Known others file)
    (hmember : file ∈ component.members) :
    component.IsClass units ↔ component.IsClass others :=
  ⟨h.isClass hfile' hmember, h.symm.isClass hfile hmember⟩

end AgreeFrom

/-- Staging is local: where all files that a file reaches have the same includes in two
lists of units, both plans have the file in one and the same stage, and both reports have it
in the same cycle or in none. -/
theorem staging_local {policy : SelfLoopPolicy} {report other : Report}
    (hreport : analyze units policy = .ok report) (hother : analyze others policy = .ok other)
    (hfile : Known units file) (hfile' : Known others file)
    (hsame : ∀ name, DependsOn units file name → ∀ target,
      Includes units name target ↔ Includes others name target) :
    (∃ k, ∀ l, (report.plan.Places l file ↔ l = k) ∧ (other.plan.Places l file ↔ l = k)) ∧
      ∀ cycle, file ∈ cycle → (cycle ∈ report.cycles ↔ cycle ∈ other.cycles) := by
  obtain ⟨g, c, count, h⟩ := exists_gathered hreport
  obtain ⟨g', c', count', h'⟩ := exists_gathered hother
  have hagree : AgreeFrom units others file := hsame
  constructor
  · obtain ⟨k, hk⟩ := h.exists_height hfile
    have hstage : ∀ l, report.plan.Places l file ↔ l = k := by
      intro l
      rw [h.places_iff]
      constructor
      · exact fun hl => h.height_unique hl hk
      · rintro rfl
        exact hk
    refine ⟨k, fun l => ⟨hstage l, ?_⟩⟩
    rw [h'.places_iff, ← hagree.height_iff hfile hfile', ← h.places_iff, hstage l]
  · intro cycle hmember
    rw [h.mem_cycles_iff, h'.mem_cycles_iff]
    refine exists_congr fun component => ?_
    constructor
    · rintro ⟨hclass, hreported, rfl⟩
      exact ⟨(hagree.isClass_iff hfile hfile' hmember).mp hclass, hreported, rfl⟩
    · rintro ⟨hclass, hreported, rfl⟩
      exact ⟨(hagree.isClass_iff hfile hfile' hmember).mpr hclass, hreported, rfl⟩

/-- The ring and its including file among other files, one of which includes both. -/
def ringInProject : List SourceUnit :=
  [⟨"app.c", ["main.c", "c.h"]⟩, ⟨"c.h", ["a.h"]⟩, ⟨"b.h", ["c.h"]⟩, ⟨"a.h", ["b.h", "b.h"]⟩,
    ⟨"lone.h", ["lone.h"]⟩, ⟨"main.c", ["a.h"]⟩]

theorem agreeFrom_ring : AgreeFrom Plan.ring ringInProject "main.c" := by
  intro name hchain target
  have hname : name ∈ ["main.c", "a.h", "b.h", "c.h"] := by
    induction hchain with
    | refl => decide
    | tail _ hincludes _ =>
        rw [Plan.includes_ring] at hincludes
        simp only [List.mem_cons, Prod.mk.injEq, List.not_mem_nil, or_false] at hincludes ⊢
        tauto
  simp only [List.mem_cons, List.not_mem_nil, or_false] at hname
  rcases hname with rfl | rfl | rfl | rfl <;> simp [Includes, Plan.ring, ringInProject]

/-- The files around the ring change neither the stage of the file with it nor the cycle. -/
theorem staging_local_ring : ∃ report other, analyze Plan.ring .ignore = .ok report ∧
    analyze ringInProject .ignore = .ok other ∧
    (∃ k, report.plan.Places k "main.c" ∧ other.plan.Places k "main.c") ∧
    (["a.h", "b.h", "c.h"] ∈ report.cycles ↔ ["a.h", "b.h", "c.h"] ∈ other.cycles) := by
  obtain ⟨report, hreport⟩ := exists_analyze_of_known Plan.ring .ignore (by decide)
  obtain ⟨other, hother⟩ := exists_analyze_of_known ringInProject .ignore (by decide)
  have hheader : DependsOn Plan.ring "main.c" "a.h" := .single (by decide)
  obtain ⟨⟨k, hk⟩, _⟩ :=
    staging_local hreport hother (by decide) (by decide) agreeFrom_ring
  obtain ⟨_, hcycles⟩ :=
    staging_local hreport hother (by decide) (by decide) (agreeFrom_ring.of_dependsOn hheader)
  exact ⟨report, other, hreport, hother, ⟨k, (hk k).1.mpr rfl, (hk k).2.mpr rfl⟩,
    hcycles _ (by decide)⟩

end IncludeGraph
