import Mathlib.Logic.Equiv.Fin.Basic
import IncludeGraph.Proofs.Digraph.Chain
import IncludeGraph.Proofs.Digraph.WeakComponents

/-!
# Renumbered graphs

Two graphs with the same nodes in another order.  `Renumbers` carries the edges of one to
those of the other, parallel copies included, and `RenumbersAdj` asks only that the same nodes
are adjacent, by however many edges.  Neighbours do not depend on the numbers; chains, levels
and the number of weakly connected components depend on the adjacent nodes alone.
-/

namespace IncludeGraph

variable {n m : Nat} {σ : Fin n ≃ Fin m}

/-! ## Vectors -/

theorem finRange_perm_map (σ : Fin n ≃ Fin m) :
    (List.finRange m).Perm ((List.finRange n).map σ) := by
  apply (List.perm_ext_iff_of_nodup (List.nodup_finRange m)
    ((List.nodup_finRange n).map σ.injective)).mpr
  intro v
  simp only [List.mem_finRange, List.mem_map, true_and, true_iff]
  exact σ.surjective v

section Vectors

variable {α : Type*} {values : Vector α n} {others : Vector α m}

/-- Vectors with the same entries in another order are renumbered. -/
theorem exists_equiv_get_eq (hvalues : values.toList.Nodup) (hothers : others.toList.Nodup)
    (hmem : ∀ value, value ∈ values.toList ↔ value ∈ others.toList) :
    ∃ σ : Fin n ≃ Fin m, ∀ i, others.get (σ i) = values.get i := by
  have hplace : ∀ i, ∃ j, others.get j = values.get i := fun i =>
    mem_toList_iff_get.mp ((hmem _).mp (mem_toList_iff_get.mpr ⟨i, rfl⟩))
  choose place hplace using hplace
  have hbijective : Function.Bijective place := by
    constructor
    · intro i j heq
      apply get_injective hvalues
      rw [← hplace i, ← hplace j, heq]
    · intro j
      obtain ⟨i, hi⟩ := mem_toList_iff_get.mp
        ((hmem _).mpr (mem_toList_iff_get.mpr ⟨j, rfl⟩))
      refine ⟨i, get_injective hothers ?_⟩
      rw [hplace i, hi]
  exact ⟨.ofBijective place hbijective, hplace⟩

/-- Renumbered vectors list the same entries. -/
theorem toList_perm_of_get_eq (hget : ∀ i, others.get (σ i) = values.get i) :
    values.toList.Perm others.toList := by
  rw [vector_toList_eq_map_get, vector_toList_eq_map_get]
  calc
    (List.finRange n).map values.get = ((List.finRange n).map σ).map others.get := by
      rw [List.map_map]
      exact List.map_congr_left fun i _ => (hget i).symm
    List.Perm _ ((List.finRange m).map others.get) := (finRange_perm_map σ).symm.map _

end Vectors

/-! ## Graphs -/

namespace Digraph

variable {g : Digraph n} {h : Digraph m} {u v : Fin n} {d k : Nat}

/-- The renumbering carries the edges of one graph to those of the other. -/
structure Renumbers (σ : Fin n ≃ Fin m) (g : Digraph n) (h : Digraph m) : Prop where
  edges_perm : (g.edges.toList.map fun e => (σ e.1, σ e.2)).Perm h.edges.toList

namespace Renumbers

/-- Without parallel edges it is enough that the same nodes are adjacent. -/
theorem of_adj_iff (hg : g.edges.toList.Nodup) (hh : h.edges.toList.Nodup)
    (hadj : ∀ u v, g.Adj u v ↔ h.Adj (σ u) (σ v)) : Renumbers σ g h where
  edges_perm := by
    have hinjective : Function.Injective fun e : Fin n × Fin n => (σ e.1, σ e.2) :=
      σ.injective.prodMap σ.injective
    apply (List.perm_ext_iff_of_nodup (hg.map hinjective) hh).mpr
    rintro ⟨x, y⟩
    obtain ⟨u, rfl⟩ := σ.surjective x
    obtain ⟨v, rfl⟩ := σ.surjective y
    refine (List.mem_map_of_injective hinjective (a := (u, v))).trans ?_
    rw [Array.mem_toList_iff, Array.mem_toList_iff]
    exact hadj u v

theorem adj_iff (hσ : Renumbers σ g h) : h.Adj (σ u) (σ v) ↔ g.Adj u v := by
  have hinjective : Function.Injective fun e : Fin n × Fin n => (σ e.1, σ e.2) :=
    σ.injective.prodMap σ.injective
  rw [Adj, Adj, ← Array.mem_toList_iff, ← Array.mem_toList_iff, ← hσ.edges_perm.mem_iff]
  exact List.mem_map_of_injective hinjective (a := (u, v))

theorem edgeCount_eq (hσ : Renumbers σ g h) : h.edgeCount = g.edgeCount := by
  have hlength := hσ.edges_perm.length_eq
  rw [List.length_map, Array.length_toList, Array.length_toList] at hlength
  exact hlength.symm

/-- The far ends of the edges of a node are renumbered with it. -/
theorem get_adjacency_perm (hσ : Renumbers σ g h) (near far : ∀ {k}, Fin k × Fin k → Fin k)
    (hnear : ∀ e, near (σ e.1, σ e.2) = σ (near e)) (hfar : ∀ e, far (σ e.1, σ e.2) = σ (far e))
    (v : Fin n) :
    ((h.adjacency near far).get (σ v)).Perm (((g.adjacency near far).get v).map σ) := by
  rw [get_adjacency, get_adjacency, List.map_reverse]
  refine (List.reverse_perm _).trans (List.Perm.trans ?_ (List.reverse_perm _).symm)
  refine (hσ.edges_perm.symm.filterMap _).trans (List.Perm.of_eq ?_)
  rw [List.filterMap_map, List.map_filterMap]
  apply List.filterMap_congr
  intro e _
  simp only [Function.comp_apply, hnear, hfar, σ.apply_eq_iff_eq]
  by_cases hv : near e = v <;> simp [hv]

theorem get_outgoing_perm (hσ : Renumbers σ g h) (v : Fin n) :
    (h.outgoing.get (σ v)).Perm ((g.outgoing.get v).map σ) :=
  hσ.get_adjacency_perm Prod.fst Prod.snd (fun _ => rfl) (fun _ => rfl) v

theorem get_incoming_perm (hσ : Renumbers σ g h) (v : Fin n) :
    (h.incoming.get (σ v)).Perm ((g.incoming.get v).map σ) :=
  hσ.get_adjacency_perm Prod.snd Prod.fst (fun _ => rfl) (fun _ => rfl) v

end Renumbers

/-- The renumbering carries adjacent nodes to adjacent nodes, whatever the number of edges that
join them. -/
structure RenumbersAdj (σ : Fin n ≃ Fin m) (g : Digraph n) (h : Digraph m) : Prop where
  adj_iff : ∀ u v, h.Adj (σ u) (σ v) ↔ g.Adj u v

namespace RenumbersAdj

theorem symm (hσ : RenumbersAdj σ g h) : RenumbersAdj σ.symm h g where
  adj_iff x y := by
    obtain ⟨u, rfl⟩ := σ.surjective x
    obtain ⟨v, rfl⟩ := σ.surjective y
    rw [σ.symm_apply_apply, σ.symm_apply_apply, hσ.adj_iff]

theorem chain_iff (hσ : RenumbersAdj σ g h) : h.Chain k (σ v) ↔ g.Chain k v := by
  induction k generalizing v with
  | zero => exact Iff.rfl
  | succ k ih =>
      constructor
      · rintro ⟨x, hadj, hrest⟩
        obtain ⟨w, rfl⟩ := σ.surjective x
        exact ⟨w, (hσ.adj_iff v w).mp hadj, ih.mp hrest⟩
      · rintro ⟨w, hadj, hrest⟩
        exact ⟨σ w, (hσ.adj_iff v w).mpr hadj, ih.mpr hrest⟩

/-- Levels hold the renumbered nodes. -/
theorem level_perm (hσ : RenumbersAdj σ g h) (d : Nat) :
    (h.level d).Perm ((g.level d).map σ) := by
  apply (List.perm_ext_iff_of_nodup (h.nodup_level d) ((g.nodup_level d).map σ.injective)).mpr
  intro x
  obtain ⟨v, rfl⟩ := σ.surjective x
  rw [List.mem_map_of_injective σ.injective, mem_level, mem_level, longestChain_iff,
    longestChain_iff, hσ.chain_iff, hσ.chain_iff]

theorem leadsToCycle_iff (hσ : RenumbersAdj σ g h) :
    h.LeadsToCycle (σ v) ↔ g.LeadsToCycle v := by
  rw [leadsToCycle_iff_forall_chain, leadsToCycle_iff_forall_chain]
  exact forall_congr' fun _ => hσ.chain_iff

theorem hasCycle_iff (hσ : RenumbersAdj σ g h) : h.HasCycle ↔ g.HasCycle := by
  rw [hasCycle_iff_exists_leadsToCycle, hasCycle_iff_exists_leadsToCycle, σ.surjective.exists]
  exact exists_congr fun _ => hσ.leadsToCycle_iff

theorem length_weaklyConnected_eq (hσ : RenumbersAdj σ g h) :
    h.weaklyConnected.length = g.weaklyConnected.length := by
  rw [length_weaklyConnected, length_weaklyConnected]
  exact (Nat.card_congr (Quot.congr σ fun u v => (hσ.adj_iff u v).symm)).symm

end RenumbersAdj

theorem Renumbers.renumbersAdj (hσ : Renumbers σ g h) : RenumbersAdj σ g h :=
  ⟨fun _ _ => hσ.adj_iff⟩

end Digraph

end IncludeGraph
