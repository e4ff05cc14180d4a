import Mathlib.Data.Fintype.Card
import Mathlib.Data.Fintype.EquivFin
import Mathlib.Logic.Relation
import IncludeGraph.Digraph.Search

/-!
# Reachability

The paths of a directed graph, the tables of its neighbours, its cycles and the nodes
that lead to one.  The tables that the searches read hold the edges of the graph and
nothing else: each lists the far ends of the edges of a node, newest edge first, and
one entry for every parallel copy.
-/

namespace IncludeGraph

/-- Reading a vector after one of its entries has been replaced. -/
theorem vector_get_set {α : Type*} {n : Nat} (values : Vector α n) (v w : Fin n) (value : α) :
    (values.set v value v.isLt).get w = if v = w then value else values.get w := by
  by_cases hindex : v = w
  · subst hindex
    rw [if_pos rfl]
    exact Vector.getElem_set_self v.isLt
  · rw [if_neg hindex]
    exact Vector.getElem_set_ne v.isLt w.isLt (Fin.val_ne_of_ne hindex)

theorem vector_get_replicate {α : Type*} {n : Nat} (value : α) (v : Fin n) :
    (Vector.replicate n value).get v = value :=
  Vector.getElem_replicate v.isLt

theorem vector_get_map {α β : Type*} {n : Nat} (f : α → β) (values : Vector α n) (v : Fin n) :
    (values.map f).get v = f (values.get v) :=
  Vector.getElem_map f v.isLt

theorem vector_get_zipWith {α β γ : Type*} {n : Nat} (f : α → β → γ) (values : Vector α n)
    (others : Vector β n) (v : Fin n) :
    (values.zipWith f others).get v = f (values.get v) (others.get v) :=
  Vector.getElem_zipWith v.isLt

theorem vector_toList_eq_map_get {α : Type*} {n : Nat} (values : Vector α n) :
    values.toList = (List.finRange n).map values.get := by
  apply List.ext_getElem (by simp)
  intro i hi _
  rw [Vector.getElem_toList, List.getElem_map, List.getElem_finRange]
  rfl

theorem mem_toList_iff_get {α : Type*} {n : Nat} {values : Vector α n} {value : α} :
    value ∈ values.toList ↔ ∃ v, values.get v = value := by
  simp [vector_toList_eq_map_get]

theorem get_injective {α : Type*} {n : Nat} {values : Vector α n}
    (hnodup : values.toList.Nodup) : Function.Injective values.get := by
  rw [vector_toList_eq_map_get] at hnodup
  intro v w heq
  exact List.inj_on_of_nodup_map hnodup (List.mem_finRange v) (List.mem_finRange w) heq

@[simp]
theorem Marks.get_none {n : Nat} (v : Fin n) : (Marks.none : Marks n).get v = false :=
  vector_get_replicate false v

/-- Marking a node keeps the marks of all others. -/
theorem Marks.get_set_iff {n : Nat} (marks : Marks n) (v w : Fin n) :
    (marks.set v true v.isLt).get w = true ↔ w = v ∨ marks.get w = true := by
  rw [vector_get_set, eq_comm]
  by_cases hindex : v = w
  · simp [hindex]
  · simp [hindex, Ne.symm hindex]

namespace Digraph

variable {n : Nat} {g : Digraph n} {u v w : Fin n}

theorem Reaches.single (hadj : g.Adj u v) : g.Reaches u v :=
  .step hadj (.refl v)

theorem Reaches.trans (hleft : g.Reaches u v) (hright : g.Reaches v w) : g.Reaches u w := by
  induction hleft with
  | refl _ => exact hright
  | step hadj _ ih => exact .step hadj (ih hright)

theorem Reaches.tail (hpath : g.Reaches u v) (hadj : g.Adj v w) : g.Reaches u w :=
  hpath.trans (.single hadj)

theorem reaches_iff_reflTransGen : g.Reaches u v ↔ Relation.ReflTransGen g.Adj u v := by
  constructor
  · intro hpath
    induction hpath with
    | refl _ => exact .refl
    | step hadj _ ih => exact .head hadj ih
  · intro hpath
    induction hpath with
    | refl => exact .refl u
    | tail _ hadj ih => exact ih.tail hadj

theorem MutuallyReachable.refl (v : Fin n) : g.MutuallyReachable v v :=
  ⟨.refl v, .refl v⟩

theorem MutuallyReachable.symm (h : g.MutuallyReachable u v) : g.MutuallyReachable v u :=
  ⟨h.2, h.1⟩

theorem MutuallyReachable.trans (hleft : g.MutuallyReachable u v)
    (hright : g.MutuallyReachable v w) : g.MutuallyReachable u w :=
  ⟨hleft.1.trans hright.1, hright.2.trans hleft.2⟩

/-! ## Neighbour tables -/

/-- The step of `adjacency` puts the far end of an edge in front of the list of its
near end. -/
theorem get_adjacency_foldl (near far : Fin n × Fin n → Fin n)
    (edges : List (Fin n × Fin n)) (table : Vector (List (Fin n)) n) (v : Fin n) :
    (edges.foldl (fun table e =>
        table.set (near e) (far e :: table.get (near e)) (near e).isLt) table).get v =
      (edges.filterMap fun e => if near e = v then some (far e) else none).reverse ++
        table.get v := by
  induction edges generalizing table with
  | nil => rfl
  | cons e edges ih =>
      rw [List.foldl_cons, ih, vector_get_set]
      by_cases hnear : near e = v
      · subst hnear
        simp
      · simp [hnear]

theorem get_adjacency (g : Digraph n) (near far : Fin n × Fin n → Fin n) (v : Fin n) :
    (g.adjacency near far).get v =
      (g.edges.toList.filterMap fun e => if near e = v then some (far e) else none).reverse := by
  rw [adjacency, ← Array.foldl_toList]
  refine (get_adjacency_foldl near far g.edges.toList _ v).trans ?_
  rw [vector_get_replicate, List.append_nil]

@[simp]
theorem get_outgoing (g : Digraph n) (v : Fin n) : g.outgoing.get v = g.successors v :=
  g.get_adjacency Prod.fst Prod.snd v

@[simp]
theorem get_incoming (g : Digraph n) (v : Fin n) : g.incoming.get v = g.predecessors v :=
  g.get_adjacency Prod.snd Prod.fst v

@[simp]
theorem mem_successors : w ∈ g.successors v ↔ g.Adj v w := by
  simp [successors, Adj]

@[simp]
theorem mem_predecessors : w ∈ g.predecessors v ↔ g.Adj w v := by
  simp [predecessors, Adj]

@[simp]
theorem adj_ofEdges {edges : List (Fin n × Fin n)} : (ofEdges edges).Adj u v ↔ (u, v) ∈ edges :=
  List.mem_toArray

/-! ## Acyclic graphs -/

theorem hasCycle_iff_transGen : g.HasCycle ↔ ∃ u, Relation.TransGen g.Adj u u := by
  simp only [Relation.TransGen.head'_iff, ← reaches_iff_reflTransGen]
  rfl

/-- A graph whose edges all lead down in some ranking has no cycle. -/
theorem not_hasCycle_of_rank (rank : Fin n → Nat)
    (hrank : ∀ u v, g.Adj u v → rank v < rank u) : ¬ g.HasCycle := by
  rintro ⟨u, v, hadj, hback⟩
  have hle : ∀ {x y}, g.Reaches x y → rank y ≤ rank x := by
    intro x y hpath
    induction hpath with
    | refl _ => exact Nat.le_refl _
    | step hedge _ ih => exact ih.trans (hrank _ _ hedge).le
  exact absurd (hle hback) (Nat.not_le_of_gt (hrank u v hadj))

theorem eq_of_mutuallyReachable (hacyclic : ¬ g.HasCycle) (hmutual : g.MutuallyReachable u v) :
    u = v := by
  obtain ⟨hforth, hback⟩ := hmutual
  cases hforth with
  | refl _ => rfl
  | step hadj hrest => exact absurd ⟨u, _, hadj, hrest.trans hback⟩ hacyclic

/-! ## Nodes that lead to a cycle -/

/-- A path leads from the node onto a directed cycle. -/
def LeadsToCycle (g : Digraph n) (v : Fin n) : Prop :=
  ∃ u w, g.Reaches v u ∧ g.Adj u w ∧ g.Reaches w u

theorem LeadsToCycle.hasCycle (h : g.LeadsToCycle v) : g.HasCycle := by
  obtain ⟨u, w, _, hcycle⟩ := h
  exact ⟨u, w, hcycle⟩

theorem HasCycle.exists_leadsToCycle (h : g.HasCycle) : ∃ v, g.LeadsToCycle v := by
  obtain ⟨u, w, hcycle⟩ := h
  exact ⟨u, u, w, .refl u, hcycle⟩

theorem hasCycle_iff_exists_leadsToCycle : g.HasCycle ↔ ∃ v, g.LeadsToCycle v :=
  ⟨HasCycle.exists_leadsToCycle, fun ⟨_, hv⟩ => hv.hasCycle⟩

theorem LeadsToCycle.of_adj (h : g.LeadsToCycle w) (hadj : g.Adj v w) : g.LeadsToCycle v := by
  obtain ⟨x, y, hpath, hcycle⟩ := h
  exact ⟨x, y, .step hadj hpath, hcycle⟩

/-- From a node that leads to a cycle some edge leads to another such node. -/
theorem LeadsToCycle.exists_adj (h : g.LeadsToCycle v) : ∃ w, g.Adj v w ∧ g.LeadsToCycle w := by
  obtain ⟨x, y, hpath, hadj, hback⟩ := h
  cases hpath with
  | refl => exact ⟨y, hadj, v, y, hback, hadj, hback⟩
  | @step _ w _ hedge hrest => exact ⟨w, hedge, x, y, hrest, hadj, hback⟩

/-- Walking along edges away from nodes that lead to no cycle comes to an end. -/
theorem wellFounded_not_leadsToCycle (g : Digraph n) :
    WellFounded fun w v => g.Adj v w ∧ ¬ g.LeadsToCycle v := by
  let edge : Fin n → Fin n → Prop := fun v w => g.Adj v w ∧ ¬ g.LeadsToCycle v
  let below : Fin n → Fin n → Prop := fun w v => Relation.TransGen edge v w
  have htrans : IsTrans (Fin n) below := ⟨fun _ _ _ hleft hright => hright.trans hleft⟩
  have hirrefl : Std.Irrefl below := by
    constructor
    intro v hloop
    obtain ⟨w, ⟨hadj, hcalm⟩, hback⟩ := Relation.TransGen.head'_iff.mp hloop
    have hreaches : g.Reaches w v :=
      reaches_iff_reflTransGen.mpr (hback.lift id fun _ _ hedge => hedge.1)
    exact hcalm ⟨v, w, .refl v, hadj, hreaches⟩
  have hsub : Subrelation (fun w v => edge v w) below := fun hedge => .single hedge
  exact hsub.wf (Finite.wellFounded_of_trans_of_irrefl below)

end Digraph

end IncludeGraph
