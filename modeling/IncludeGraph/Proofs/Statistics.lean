import IncludeGraph.Stats
import IncludeGraph.Proofs.Components
import IncludeGraph.Proofs.Digraph.Renumbering

/-!
# Statistics of renumbered graphs

The statistics count nodes, edges, degrees and classes, and none of these depends on the
numbers of the nodes or on the order of the edges.
-/

namespace IncludeGraph.Stats

open IncludeGraph.Digraph

variable {n m : Nat} {σ : Fin n ≃ Fin m} {g : Digraph n} {h : Digraph m}

theorem get_outDegrees_eq (hσ : Renumbers σ g h) (v : Fin n) :
    (h.outgoing.map List.length).get (σ v) = (g.outgoing.map List.length).get v := by
  rw [vector_get_map, vector_get_map, (hσ.get_outgoing_perm v).length_eq, List.length_map]

theorem get_inDegrees_eq (hσ : Renumbers σ g h) (v : Fin n) :
    (h.incoming.map List.length).get (σ v) = (g.incoming.map List.length).get v := by
  rw [vector_get_map, vector_get_map, (hσ.get_incoming_perm v).length_eq, List.length_map]

/-- Vectors with a property at renumbered places have it the same number of times. -/
theorem countP_eq_of_get_eq {α : Type} {values : Vector α n} {others : Vector α m} {p : α → Bool}
    (hget : ∀ v, p (others.get (σ v)) = p (values.get v)) :
    others.countP p = values.countP p := by
  have hmap : ∀ v, (others.map p).get (σ v) = (values.map p).get v := by
    intro v
    rw [vector_get_map, vector_get_map, hget]
  have hcount := (toList_perm_of_get_eq hmap).countP_eq id
  rw [Vector.countP_toList, Vector.countP_toList, Vector.countP_map, Vector.countP_map] at hcount
  exact hcount.symm

/-- Renumbered vectors have the same greatest entry. -/
theorem foldl_max_eq_of_get_eq {values : Vector Nat n} {others : Vector Nat m}
    (hget : ∀ v, others.get (σ v) = values.get v) :
    others.foldl max 0 = values.foldl max 0 := by
  rw [← Vector.foldl_toList, ← Vector.foldl_toList]
  exact ((toList_perm_of_get_eq hget).foldl_eq 0).symm

/-- Renumbering the files and the components leaves the statistics as they are. -/
theorem compute_eq_of_renumbers {g h : FileGraph} {c d : Condensed} {σ : Fin g.size ≃ Fin h.size}
    {τ : Fin c.size ≃ Fin d.size} (hσ : Renumbers σ g.links h.links)
    (hτ : Renumbers τ c.links d.links)
    (hget : ∀ i, (d.components.get (τ i)).members = (c.components.get i).members) :
    compute h d = compute g c := by
  have hsize : h.size = g.size := (Fin.equiv_iff_eq.mp ⟨σ⟩).symm
  have hcomponents : d.size = c.size := (Fin.equiv_iff_eq.mp ⟨τ⟩).symm
  have hloops : ∀ v, h.selfLoops.get (σ v) = g.selfLoops.get v := by
    intro v
    rw [Bool.eq_iff_iff, FileGraph.get_selfLoops, FileGraph.get_selfLoops, hσ.adj_iff]
  have hdegrees : ∀ v, ((h.links.outgoing.map List.length).zipWith (· + ·)
      (h.links.incoming.map List.length)).get (σ v) =
        ((g.links.outgoing.map List.length).zipWith (· + ·)
          (g.links.incoming.map List.length)).get v := by
    intro v
    rw [vector_get_zipWith, vector_get_zipWith, get_outDegrees_eq hσ, get_inDegrees_eq hσ]
  have hcycles : ∀ i, (d.components.get (τ i)).isCycle = (c.components.get i).isCycle := by
    intro i
    rw [Component.isCycle, Component.isCycle, hget]
  have hisolated := countP_eq_of_get_eq (p := (· == 0)) fun v => congrArg (· == 0) (hdegrees v)
  simp only [compute, FileGraph.nodeCount, FileGraph.edgeCount, Condensed.componentCount,
    Condensed.cycleCount, hsize, hcomponents, hσ.edgeCount_eq, hτ.edgeCount_eq,
    hσ.renumbersAdj.length_weaklyConnected_eq, countP_eq_of_get_eq hcycles,
    countP_eq_of_get_eq (p := id) hloops, hisolated,
    foldl_max_eq_of_get_eq (get_outDegrees_eq hσ), foldl_max_eq_of_get_eq (get_inDegrees_eq hσ)]

end IncludeGraph.Stats
