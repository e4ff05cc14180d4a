import IncludeGraph.Proofs.Condensation
import IncludeGraph.Proofs.Verdict

/-!
# Checking a plan

`verify` looks at single includes, at the number of files and at a table of their
stages.  `Respects` is what a plan is for: every file is migrated once, files of one
cycle together, and every other file after the files that it includes.  For the graph
of a list of units and its own components both say the same of every plan.
-/

namespace IncludeGraph.Plan

variable {p : Plan} {g : FileGraph} {c : Condensed}

/-! ## The files of a graph -/

/-- A plan for a graph without shared names lists the files of the graph. -/
theorem listsFiles_iff_perm (hnodup : g.names.toList.Nodup) :
    p.ListsFiles g ↔ p.stages.flatten.Perm g.names.toList := by
  constructor
  · rintro ⟨_, hlisted, hlength⟩
    have hle : p.stages.flatten.length ≤ g.names.toList.length := by
      rw [hlength, Vector.length_toList]
    exact ((hnodup.subperm hlisted).perm_of_length_le hle).symm
  · intro hperm
    exact {
      nodup := hperm.nodup_iff.mpr hnodup
      listed := fun file => hperm.mem_iff.mpr
      length_eq := by rw [hperm.length_eq, Vector.length_toList]
    }

/-- A plan is accepted exactly if it lists the files of the graph and orders the ends of
every include. -/
theorem verify_eq_ok_iff (hnodup : g.names.toList.Nodup) : p.verify g c = .ok () ↔
    p.stages.flatten.Perm g.names.toList ∧
      ∀ pair ∈ FileGraph.edgeNames g.names g.links, p.Orders c pair.1 pair.2 := by
  rw [verify_eq_ok_iff_orders, listsFiles_iff_perm hnodup]

/-! ## What a plan is for -/

variable {units : List SourceUnit}

/-- A plan for the files of a list of units. -/
structure Respects (p : Plan) (units : List SourceUnit) : Prop where
  /-- Every file is listed once. -/
  once : ∀ name, Known units name → p.stages.flatten.count name = 1
  /-- Nothing else is listed. -/
  known : ∀ name ∈ p.stages.flatten, Known units name
  /-- Cycle-mates share a stage. -/
  together : ∀ name other, Known units name → Known units other → CycleMates units name other →
    ∃ k, p.Places k name ∧ p.Places k other
  /-- An included file comes before the file that includes it, unless they are cycle-mates. -/
  before : ∀ source target, Includes units source target → ¬ CycleMates units source target →
    ∃ k l, p.Places k source ∧ p.Places l target ∧ l < k

theorem orders_iff_of_known (hgraph : g.Represents units) (hc : c.Condenses g g.components)
    {source target : String} (hsource : Known units source) (htarget : Known units target) :
    p.Orders c source target ↔
      (CycleMates units source target ∧ ∃ k, p.Places k source ∧ p.Places k target) ∨
        ¬ CycleMates units source target ∧
          ∃ k l, p.Places k source ∧ p.Places l target ∧ l < k := by
  rw [Orders, ← hc.componentOf_eq_iff hgraph hsource htarget]
  by_cases hshared : c.componentOf source = c.componentOf target
  · simp [hshared]
  · simp [hshared]

/-- Where the ends of every include are ordered, a chain of includes that leads back to
its start stays in one stage. -/
theorem places_of_cycleMates (hgraph : g.Represents units) (hc : c.Condenses g g.components)
    (hnodup : p.stages.flatten.Nodup)
    (hordered : ∀ source target, Includes units source target → p.Orders c source target)
    {name other : String} (hmates : CycleMates units name other) {k : Nat}
    (hname : p.Places k name) : p.Places k other := by
  obtain ⟨hforth, hback⟩ := hmates
  induction hforth with
  | refl => exact hname
  | @tail middle other hchain hincludes ih =>
      have hmiddle : p.Places k middle := ih (.head hincludes hback)
      have hmates : CycleMates units middle other := ⟨.single hincludes, hback.trans hchain⟩
      rcases (orders_iff_of_known hgraph hc hincludes.known_source
        (hgraph.known _ _ hincludes)).mp (hordered middle other hincludes) with
        ⟨_, l, hl, hother⟩ | ⟨hapart, _⟩
      · rw [hmiddle.unique hnodup hl]
        exact hother
      · exact absurd hmates hapart

/-- The checks are sound: a plan with the files of the graph that orders the ends of every
include is a plan for the units. -/
theorem respects_of_orders (hgraph : g.Represents units) (hc : c.Condenses g g.components)
    (hfiles : p.stages.flatten.Perm g.names.toList)
    (hordered : ∀ source target, Includes units source target → p.Orders c source target) :
    p.Respects units := by
  have hnodup := hfiles.nodup_iff.mpr hgraph.nodup
  have hmem : ∀ {name}, name ∈ p.stages.flatten ↔ Known units name :=
    hfiles.mem_iff.trans hgraph.mem_names_iff
  refine {
    once := ?_
    known := fun name => hmem.mp
    together := ?_
    before := ?_
  }
  · intro name hname
    exact List.count_eq_one_of_mem hnodup (hmem.mpr hname)
  · intro name other hname _ hmates
    obtain ⟨k, hk⟩ := exists_places_iff.mpr (hmem.mpr hname)
    exact ⟨k, hk, places_of_cycleMates hgraph hc hnodup hordered hmates hk⟩
  · intro source target hincludes hapart
    have horders := hordered source target hincludes
    rw [orders_iff_of_known hgraph hc hincludes.known_source (hgraph.known _ _ hincludes)]
      at horders
    exact (horders.resolve_left fun h => hapart h.1).2

namespace Respects

/-- A plan for the units has the files of their graph. -/
theorem flatten_perm (h : p.Respects units) (hgraph : g.Represents units) :
    p.stages.flatten.Perm g.names.toList := by
  have hnodup : p.stages.flatten.Nodup := by
    apply List.nodup_iff_count_le_one.mpr
    intro name
    by_cases hname : name ∈ p.stages.flatten
    · exact (h.once name (h.known name hname)).le
    · rw [List.count_eq_zero.mpr hname]
      exact Nat.zero_le 1
  apply (List.perm_ext_iff_of_nodup hnodup hgraph.nodup).mpr
  intro name
  rw [hgraph.mem_names_iff]
  constructor
  · exact h.known name
  · intro hname
    apply List.count_pos_iff.mp
    rw [h.once name hname]
    exact Nat.one_pos

/-- A plan for the units orders the ends of every include. -/
theorem orders (h : p.Respects units) (hgraph : g.Represents units)
    (hc : c.Condenses g g.components) {source target : String}
    (hincludes : Includes units source target) : p.Orders c source target := by
  have hsource := hincludes.known_source
  have htarget := hgraph.known source target hincludes
  rw [orders_iff_of_known hgraph hc hsource htarget]
  by_cases hmates : CycleMates units source target
  · exact .inl ⟨hmates, h.together source target hsource htarget hmates⟩
  · exact .inr ⟨hmates, h.before source target hincludes hmates⟩

end Respects

/-- For the graph of a list of units and its own components, checking a plan decides
whether it is one for these files. -/
theorem verify_eq_ok_iff_respects (hgraph : g.Represents units)
    (hc : c.Condenses g g.components) : p.verify g c = .ok () ↔ p.Respects units := by
  rw [verify_eq_ok_iff hgraph.nodup]
  constructor
  · rintro ⟨hfiles, hedges⟩
    apply respects_of_orders hgraph hc hfiles
    intro source target hincludes
    exact hedges (source, target) (hgraph.mem_edgeNames.mpr hincludes)
  · intro h
    refine ⟨h.flatten_perm hgraph, fun pair hpair => ?_⟩
    exact h.orders hgraph hc (hgraph.mem_edgeNames.mp hpair)

/-- The check of a plan against a graph and its own components is sound and complete: it
accepts the plans for the files of the graph, and no others. -/
theorem verify_decides_respects (hbuild : FileGraph.build units = .ok g) :
    ∃ c, Condensed.ofComponents g g.components = .ok c ∧
      ∀ p : Plan, p.verify g c = .ok () ↔ p.Respects units := by
  have hgraph := FileGraph.represents_of_build hbuild
  obtain ⟨c, hcondensed, hc⟩ := Condensed.ofComponents_components hgraph
  exact ⟨c, hcondensed, fun p => verify_eq_ok_iff_respects hgraph hc⟩

/-- Three headers that include each other around a ring, and a file with one of them. -/
def ring : List SourceUnit :=
  [⟨"main.c", ["a.h"]⟩, ⟨"a.h", ["b.h"]⟩, ⟨"b.h", ["c.h"]⟩, ⟨"c.h", ["a.h"]⟩]

theorem known_ring {name : String} :
    Known ring name ↔ name ∈ ["main.c", "a.h", "b.h", "c.h"] := by
  simp [Known, ring, eq_comm]

theorem includes_ring {source target : String} : Includes ring source target ↔
    (source, target) ∈ [("main.c", "a.h"), ("a.h", "b.h"), ("b.h", "c.h"), ("c.h", "a.h")] :=
  mem_includePairs.symm

/-- No header of the ring leads back to the file that includes one. -/
theorem eq_main_of_dependsOn_ring {name : String} (hchain : DependsOn ring name "main.c") :
    name = "main.c" := by
  rcases hchain.cases_tail with heq | ⟨middle, _, hlast⟩
  · exact heq.symm
  · simp [includes_ring] at hlast

/-- The includes of the headers of the ring lead to cycle-mates, the one of the other file does
not. -/
theorem cycleMates_iff_of_includes_ring {source target : String}
    (hincludes : Includes ring source target) :
    CycleMates ring source target ↔ source ≠ "main.c" := by
  have hab : DependsOn ring "a.h" "b.h" := .single (includes_ring.mpr (by decide))
  have hbc : DependsOn ring "b.h" "c.h" := .single (includes_ring.mpr (by decide))
  have hca : DependsOn ring "c.h" "a.h" := .single (includes_ring.mpr (by decide))
  rw [includes_ring] at hincludes
  simp only [List.mem_cons, Prod.mk.injEq, List.not_mem_nil, or_false] at hincludes
  rcases hincludes with ⟨rfl, rfl⟩ | ⟨rfl, rfl⟩ | ⟨rfl, rfl⟩ | ⟨rfl, rfl⟩
  · refine iff_of_false (fun hmates => ?_) (by decide)
    exact absurd (eq_main_of_dependsOn_ring hmates.2) (by decide)
  · exact iff_of_true ⟨hab, hbc.trans hca⟩ (by decide)
  · exact iff_of_true ⟨hbc, hca.trans hab⟩ (by decide)
  · exact iff_of_true ⟨hca, hab.trans hbc⟩ (by decide)

theorem respects_ring : Respects ⟨[["a.h", "b.h", "c.h"], [], ["main.c"]]⟩ ring := by
  refine {
    once := by simp only [known_ring]; decide
    known := by simp only [known_ring]; decide
    together := ?_
    before := ?_
  }
  · intro name other hname hother hmates
    rw [known_ring, List.mem_cons] at hname hother
    by_cases hfile : name = "main.c"
    · subst hfile
      rw [eq_main_of_dependsOn_ring hmates.2]
      exact ⟨2, ⟨_, rfl, by decide⟩, _, rfl, by decide⟩
    · have hheader : other ≠ "main.c" := by
        rintro rfl
        exact hfile (eq_main_of_dependsOn_ring hmates.1)
      exact ⟨0, ⟨_, rfl, hname.resolve_left hfile⟩, _, rfl, hother.resolve_left hheader⟩
  · intro source target hincludes hapart
    have hsource : source = "main.c" :=
      not_not.mp (mt (cycleMates_iff_of_includes_ring hincludes).mpr hapart)
    obtain ⟨rfl, rfl⟩ : source = "main.c" ∧ target = "a.h" := by
      simpa [includes_ring, hsource] using hincludes
    exact ⟨2, 0, ⟨_, rfl, by decide⟩, ⟨_, rfl, by decide⟩, by decide⟩

/-- The plan that keeps the ring together is accepted, one that splits it is not. -/
theorem verify_decides_respects_ring :
    ∃ g, FileGraph.build ring = .ok g ∧ ∃ c, Condensed.ofComponents g g.components = .ok c ∧
      verify ⟨[["a.h", "b.h", "c.h"], [], ["main.c"]]⟩ g c = .ok () ∧
      verify ⟨[["b.h", "c.h"], ["a.h"], ["main.c"]]⟩ g c ≠ .ok () := by
  obtain ⟨g, hbuild⟩ : ∃ g, FileGraph.build ring = .ok g := by
    rcases FileGraph.build_ok_or_unknown ring with ⟨g, hbuild, _⟩ | ⟨_, _, hunknown, _⟩
    · exact ⟨g, hbuild⟩
    · refine absurd ?_ hunknown.not_all_known
      simp only [known_ring]
      decide
  obtain ⟨c, hcondensed, hdecides⟩ := verify_decides_respects hbuild
  refine ⟨g, hbuild, c, hcondensed, (hdecides _).mpr respects_ring, fun hok => ?_⟩
  obtain ⟨_, _, htogether, _⟩ := (hdecides _).mp hok
  have hmates : CycleMates ring "a.h" "b.h" :=
    ⟨.single (includes_ring.mpr (by decide)),
      .head (b := "c.h") (includes_ring.mpr (by decide))
        (.single (includes_ring.mpr (by decide)))⟩
  obtain ⟨k, ⟨stage, hstage, ha⟩, other, hother, hb⟩ := htogether "a.h" "b.h"
    (known_ring.mpr (by decide)) (known_ring.mpr (by decide)) hmates
  have hsplit : ∀ stage ∈ [["b.h", "c.h"], ["a.h"], ["main.c"]],
      ¬ ("a.h" ∈ stage ∧ "b.h" ∈ stage) := by decide
  have hsame : stage = other := Option.some.inj (hstage.symm.trans hother)
  exact hsplit stage (List.mem_of_getElem? hstage) ⟨ha, hsame ▸ hb⟩

end IncludeGraph.Plan
