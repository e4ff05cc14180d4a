import IncludeGraph.Proofs.Components
import IncludeGraph.Proofs.Verification

/-!
# The order in which components are found

The components of a graph are listed with dependents first: a component comes before every
other component that one of its files includes.  The nodes of the condensed graph keep this
order, so that its edges lead from smaller to larger nodes.
-/

namespace IncludeGraph

variable {units : List SourceUnit}

namespace FileGraph

variable {g : FileGraph} {i j : Nat} {a b : Component} {source target : String}

/-- No file of a component includes a file of a component that is listed before it. -/
theorem Represents.pairwise_components (h : g.Represents units) :
    g.components.Pairwise fun earlier later =>
      ∀ target ∈ earlier.members, ∀ source ∈ later.members, ¬ Includes units source target := by
  rw [components, List.pairwise_map]
  apply g.links.pairwise_stronglyConnected.imp
  intro earlier later hadj target htarget source hsource hincludes
  rw [Text.mem_sortNames, List.mem_map] at htarget hsource
  obtain ⟨v, hv, rfl⟩ := htarget
  obtain ⟨w, hw, rfl⟩ := hsource
  exact hadj v hv w hw ((h.adj_iff w v).mpr hincludes)

/-- Where a file of one component includes a file of another one, the first component is
listed first. -/
theorem Represents.lt_of_includes (h : g.Represents units) (hi : g.components[i]? = some a)
    (hj : g.components[j]? = some b) (hne : i ≠ j) (hsource : source ∈ a.members)
    (htarget : target ∈ b.members) (hincludes : Includes units source target) : i < j := by
  by_contra hnot
  have hlt : j < i := lt_of_le_of_ne (Nat.le_of_not_lt hnot) hne.symm
  obtain ⟨hilen, rfl⟩ := List.getElem?_eq_some_iff.mp hi
  obtain ⟨hjlen, rfl⟩ := List.getElem?_eq_some_iff.mp hj
  have hpair := List.pairwise_iff_getElem.mp h.pairwise_components j i hjlen hilen hlt
  exact hpair target htarget source hsource hincludes

end FileGraph

namespace Condensed.Condenses

variable {g : FileGraph} {c : Condensed} {components : List Component}

/-- Node `i` of a condensed graph is component `i`. -/
theorem getElem?_components (h : c.Condenses g components) (i : Fin c.size) :
    components[i.val]? = some (c.components.get i) := by
  rw [← h.toList_eq]
  simp [Vector.get]

/-- Edges between the classes of cycle-mates lead to components that are listed later. -/
theorem lt_of_adj (h : c.Condenses g g.components) (hgraph : g.Represents units)
    {i j : Fin c.size} (hadj : c.links.Adj i j) : i < j := by
  obtain ⟨hne, source, target, hincludes, hsource, htarget⟩ :=
    (h.adj_iff_includes hgraph).mp hadj
  exact hgraph.lt_of_includes (h.getElem?_components i) (h.getElem?_components j)
    (Fin.val_ne_of_ne hne) ((h.componentOf_eq source i).mp hsource)
    ((h.componentOf_eq target j).mp htarget) hincludes

end Condensed.Condenses

namespace FileGraph

/-- The components of a built graph are in topological order, dependents first, and so are the
nodes of its condensed graph. -/
theorem components_dependents_first {g : FileGraph} (hbuild : build units = .ok g) :
    (∀ (i j : Nat) (a b : Component), g.components[i]? = some a → g.components[j]? = some b →
        i ≠ j → ∀ source ∈ a.members, ∀ target ∈ b.members,
          Includes units source target → i < j) ∧
      ∃ c, Condensed.ofComponents g g.components = .ok c ∧
        ∀ i j, c.links.Adj i j → i < j := by
  have hgraph := represents_of_build hbuild
  obtain ⟨c, hcondensed, hc⟩ := Condensed.ofComponents_components hgraph
  refine ⟨?_, c, hcondensed, fun i j => hc.lt_of_adj hgraph⟩
  intro i j a b hi hj hne source hsource target htarget hincludes
  exact hgraph.lt_of_includes hi hj hne hsource htarget hincludes

/-- The file that includes the ring is listed before the ring. -/
theorem components_dependents_first_ring : ∃ g, build Plan.ring = .ok g ∧
    ∃ (i j : Nat) (a b : Component), g.components[i]? = some a ∧ g.components[j]? = some b ∧
      "main.c" ∈ a.members ∧ "a.h" ∈ b.members ∧ i < j := by
  obtain ⟨g, hbuild⟩ := exists_build_of_known Plan.ring (by decide)
  have hgraph := represents_of_build hbuild
  have hlisted : ∀ name, Known Plan.ring name →
      ∃ (i : Nat) (a : Component), g.components[i]? = some a ∧ name ∈ a.members := by
    intro name hname
    obtain ⟨a, ha, hmem⟩ := hgraph.exists_component_of_known hname
    obtain ⟨i, hi⟩ := List.mem_iff_getElem?.mp ha
    exact ⟨i, a, hi, hmem⟩
  obtain ⟨i, a, hi, hmain⟩ := hlisted "main.c" (by decide)
  obtain ⟨j, b, hj, hheader⟩ := hlisted "a.h" (by decide)
  have hne : i ≠ j := by
    rintro rfl
    obtain rfl : a = b := Option.some.inj (hi.symm.trans hj)
    have hclass := hgraph.isClass (List.mem_of_getElem? hi)
    -- Nothing includes the file, so that the ring does not lead back to it.
    have hmates := (hclass.mem_iff_cycleMates hheader).mp hmain
    rcases hmates.1.cases_tail with heq | ⟨_, _, hlast⟩
    · exact absurd heq (by decide)
    · simp [Plan.includes_ring] at hlast
  have hincludes : Includes Plan.ring "main.c" "a.h" := by decide
  exact ⟨g, hbuild, i, j, a, b, hi, hj, hmain, hheader,
    (components_dependents_first hbuild).1 i j a b hi hj hne _ hmain _ hheader hincludes⟩

end FileGraph

end IncludeGraph
