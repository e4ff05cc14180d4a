import IncludeGraph.Output.PlanListing
import IncludeGraph.Proofs.Heights
import IncludeGraph.Proofs.Neighbours
import IncludeGraph.Proofs.StageLookup

/-!
# Explained plans

A listing explains every file by its dependencies and their stages, and would leave a
dependency out whose stage is not found.  None is: the stages of a report are sorted and list
every file, so that a file is found in its own stage and in no other.
-/

namespace IncludeGraph

variable {units : List SourceUnit} {policy : SelfLoopPolicy}

/-! ## The stages of a report -/

namespace Gathered

variable {report : Report} {g : FileGraph} {c : Condensed} {count k : Nat} {name other : String}

theorem respects (h : Gathered units policy report g c count) : report.plan.Respects units := by
  obtain rfl := h.report_eq
  exact (Plan.verify_eq_ok_iff_respects h.represents h.condenses).mp h.verify_eq

/-- A file is found in the stage that lists it. -/
theorem stageOf_eq_some_iff (h : Gathered units policy report g c count) :
    report.stageOf name = some k ↔ report.plan.Places k name := by
  refine Plan.stageOf_eq_some_iff_places (fun stage hstage => ?_) h.nodup_flatten_stages
  exact (h.pairwise_stage hstage).imp le_of_lt

theorem exists_stageOf (h : Gathered units policy report g c count) (hname : Known units name) :
    ∃ k, report.stageOf name = some k := by
  obtain ⟨k, hheight⟩ := h.exists_height hname
  exact ⟨k, h.stageOf_eq_some_iff.mpr (h.places_iff.mpr hheight)⟩

/-- A file whose stage is known is in no other. -/
theorem places_iff_eq (h : Gathered units policy report g c count)
    (hstage : report.stageOf name = some k) {l : Nat} : report.plan.Places l name ↔ l = k := by
  rw [h.stageOf_eq_some_iff] at hstage
  constructor
  · exact fun hother => hother.unique h.nodup_flatten_stages hstage
  · rintro rfl
    exact hstage

/-- An included file comes no later than the file that includes it, and no earlier exactly if
the two are cycle-mates. -/
theorem stage_le_of_includes (h : Gathered units policy report g c count)
    (hincludes : Includes units name other) {l : Nat} (hname : report.stageOf name = some k)
    (hother : report.stageOf other = some l) : l ≤ k ∧ (l = k ↔ CycleMates units name other) := by
  by_cases hmates : CycleMates units name other
  · obtain ⟨m, hm, hm'⟩ := h.respects.together name other hincludes.known_source
      (hmates.known hincludes.known_source) hmates
    have hsame : l = k :=
      ((h.places_iff_eq hother).mp hm').symm.trans ((h.places_iff_eq hname).mp hm)
    exact ⟨hsame.le, iff_of_true hsame hmates⟩
  · obtain ⟨m, m', hm, hm', hlt⟩ := h.respects.before name other hincludes hmates
    rw [(h.places_iff_eq hname).mp hm, (h.places_iff_eq hother).mp hm'] at hlt
    exact ⟨hlt.le, iff_of_false hlt.ne hmates⟩

end Gathered

/-! ## Explanations -/

namespace Output.PlanListing

variable {r : Report} {targets : List String}

/-- The dependencies whose stage is found, with their stages. -/
def stagedTargets (r : Report) (targets : List String) : List StagedFile :=
  targets.filterMap fun target => (r.stageOf target).map (⟨target, ·⟩)

theorem mem_explain {file : String} {staged : List StagedFile} :
    (file, staged) ∈ explain r ↔
      ∃ targets, (file, targets) ∈ r.dependencies ∧ stagedTargets r targets = staged := by
  rw [explain, List.mem_map]
  constructor
  · rintro ⟨⟨file, targets⟩, hentry, heq⟩
    cases heq
    exact ⟨targets, hentry, rfl⟩
  · rintro ⟨targets, hentry, rfl⟩
    exact ⟨(file, targets), hentry, rfl⟩

theorem mem_stagedTargets {staged : StagedFile} : staged ∈ stagedTargets r targets ↔
    staged.file ∈ targets ∧ r.stageOf staged.file = some staged.stage := by
  rw [stagedTargets, List.mem_filterMap]
  constructor
  · rintro ⟨target, htarget, hstaged⟩
    obtain ⟨k, hk, rfl⟩ := Option.map_eq_some_iff.mp hstaged
    exact ⟨htarget, hk⟩
  · rintro ⟨htarget, hstage⟩
    exact ⟨staged.file, htarget, by rw [hstage]; rfl⟩

/-- Files that all have a stage are all kept, in their order. -/
theorem map_file_stagedTargets (hall : ∀ target ∈ targets, ∃ k, r.stageOf target = some k) :
    (stagedTargets r targets).map (·.file) = targets := by
  induction targets with
  | nil => rfl
  | cons target targets ih =>
      obtain ⟨⟨k, hk⟩, hrest⟩ := List.forall_mem_cons.mp hall
      have hfirst : stagedTargets r (target :: targets) = ⟨target, k⟩ :: stagedTargets r targets :=
        List.filterMap_cons_some (by rw [hk]; rfl)
      rw [hfirst, List.map_cons, ih hrest]

/-- The explanations of a plan have the files of the report as their keys, in the same order, and
list every dependency of every file, in the same order, with the one stage that lists it.  This is
no later than the stage of the file itself, and the same exactly for the file itself and its
cycle-mates. -/
theorem explain_complete {report : Report} (hreport : analyze units policy = .ok report) :
    (explain report).map Prod.fst = report.files ∧
      (explain report).map (fun entry => (entry.1, entry.2.map (·.file))) = report.dependencies ∧
      ∀ file staged, (file, staged) ∈ explain report →
        ∃ k, report.stageOf file = some k ∧ (∀ l, report.plan.Places l file ↔ l = k) ∧
          ∀ target ∈ staged,
            (∀ l, report.plan.Places l target.file ↔ l = target.stage) ∧ target.stage ≤ k ∧
              (target.stage = k ↔ target.file = file ∨ CycleMates units file target.file) := by
  obtain ⟨g, c, count, h⟩ := exists_gathered hreport
  have hlists : ∀ file targets, (file, targets) ∈ report.dependencies → Known units file ∧
      ∀ target ∈ targets, Includes units file target := by
    intro file targets hentry
    obtain ⟨hfile, _, htargets⟩ := (h.isListing_dependencies.mem_iff file targets).mp hentry
    exact ⟨hfile, fun target => (htargets target).mp⟩
  have hstages : ∀ file targets, (file, targets) ∈ report.dependencies →
      ∀ target ∈ targets, ∃ k, report.stageOf target = some k := by
    intro file targets hentry target htarget
    have hincludes := (hlists file targets hentry).2 target htarget
    exact h.exists_stageOf (h.represents.known file target hincludes)
  refine ⟨?_, ?_, ?_⟩
  · rw [← h.keys_eq.1, explain, List.map_map]
    rfl
  · rw [explain, List.map_map]
    refine (List.map_congr_left fun entry hentry => ?_).trans (List.map_id _)
    exact Prod.ext rfl (map_file_stagedTargets (hstages entry.1 entry.2 hentry))
  · intro file staged hentry
    obtain ⟨targets, htargets, rfl⟩ := mem_explain.mp hentry
    obtain ⟨hfile, hincluded⟩ := hlists file targets htargets
    obtain ⟨k, hk⟩ := h.exists_stageOf hfile
    refine ⟨k, hk, fun l => h.places_iff_eq hk, fun target htarget => ?_⟩
    obtain ⟨hmem, hstage⟩ := mem_stagedTargets.mp htarget
    obtain ⟨hle, hsame⟩ := h.stage_le_of_includes (hincluded _ hmem) hk hstage
    refine ⟨fun l => h.places_iff_eq hstage, hle, hsame.trans ⟨.inr, ?_⟩⟩
    rintro (hself | hmates)
    · rw [hself]
      exact ⟨.refl, .refl⟩
    · exact hmates

/-- Every header of the ring shares the stage of the header that it includes, and the file that
includes one of them comes later. -/
theorem explain_complete_ring : ∃ report, analyze Plan.ring .ignore = .ok report ∧
    (explain report).map Prod.fst = report.files ∧
    (∃ staged, ("main.c", staged) ∈ explain report ∧ staged.map (·.file) = ["a.h"]) ∧
    ∀ file staged, (file, staged) ∈ explain report → ∃ k, report.stageOf file = some k ∧
      ∀ target ∈ staged, target.stage ≤ k ∧ (target.stage = k ↔ file ≠ "main.c") := by
  obtain ⟨report, hreport⟩ := exists_analyze_of_known Plan.ring .ignore (by decide)
  obtain ⟨hkeys, hkept, hstages⟩ := explain_complete hreport
  obtain ⟨g, c, count, h⟩ := exists_gathered hreport
  have hmain : ("main.c", ["a.h"]) ∈ report.dependencies := by
    refine (h.isListing_dependencies.mem_iff _ _).mpr ⟨by decide, by simp, fun other => ?_⟩
    simp [Plan.includes_ring]
  refine ⟨report, hreport, hkeys, ?_, fun file staged hentry => ?_⟩
  · rw [← hkept] at hmain
    obtain ⟨⟨file, staged⟩, hentry, heq⟩ := List.mem_map.mp hmain
    obtain ⟨rfl, hfiles⟩ := Prod.mk.inj heq
    exact ⟨staged, hentry, hfiles⟩
  · obtain ⟨k, hk, _, htargets⟩ := hstages file staged hentry
    refine ⟨k, hk, fun target htarget => ?_⟩
    obtain ⟨_, hle, hsame⟩ := htargets target htarget
    have hincludes : Includes Plan.ring file target.file := by
      rw [← h.lists_dependencies_iff, ← hkept]
      exact ⟨_, List.mem_map.mpr ⟨_, hentry, rfl⟩, List.mem_map.mpr ⟨target, htarget, rfl⟩⟩
    refine ⟨hle, hsame.trans ((or_iff_right_of_imp ?_).trans
      (Plan.cycleMates_iff_of_includes_ring hincludes))⟩
    intro hself
    rw [hself]
    exact ⟨.refl, .refl⟩

end Output.PlanListing

end IncludeGraph
