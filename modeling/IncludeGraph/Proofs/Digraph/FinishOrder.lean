import Mathlib.Data.Set.Finite.Lemmas
import IncludeGraph.Proofs.Digraph.DepthFirst

/-!
# Times of completion

When the first pass of the component search is done with a node.  Every node is finished once.
Of the nodes that a node reaches, the one finished last leads back to it (`exists_last`), so
that a component is finished after all that it leads to.  Single nodes need not be: a search
that comes to a component by one of its nodes may be done with the others before it follows
the edges of that node to the next component.  But an edge leads to a node that is finished
later only if that node leads back.
-/

namespace IncludeGraph.Digraph

variable {n : Nat} {g : Digraph n} {u v : Fin n}

/-- The place of a node in the order of completion. -/
def finishTime (g : Digraph n) (v : Fin n) : Nat := g.finishOrder.idxOf v

theorem nodup_finishOrder (g : Digraph n) : g.finishOrder.Nodup :=
  List.nodup_reverse.mpr g.nodup_reverseFinishOrder

theorem mem_finishOrder (g : Digraph n) (v : Fin n) : v ∈ g.finishOrder :=
  List.mem_reverse.mpr (g.mem_reverseFinishOrder v)

/-- Every node is finished once. -/
theorem finishOrder_perm (g : Digraph n) : g.finishOrder.Perm (List.finRange n) := by
  apply (List.perm_ext_iff_of_nodup g.nodup_finishOrder (List.nodup_finRange n)).mpr
  exact fun v => iff_of_true (g.mem_finishOrder v) (List.mem_finRange v)

theorem finishTime_injective (g : Digraph n) : Function.Injective g.finishTime :=
  fun u _ heq => (List.idxOf_inj (g.mem_finishOrder u)).mp heq

/-- In the reverse order, every node comes before those finished earlier. -/
theorem pairwise_finishTime (g : Digraph n) :
    g.reverseFinishOrder.Pairwise fun u v => g.finishTime v < g.finishTime u := by
  rw [← List.pairwise_reverse]
  refine List.pairwise_iff_getElem.mpr fun i j hi hj hij => ?_
  have hplace : ∀ (k : Nat) (hk : k < g.finishOrder.length), g.finishTime g.finishOrder[k] = k :=
    fun k hk => g.nodup_finishOrder.idxOf_getElem k hk
  exact (hplace i hi).trans_lt (hij.trans_eq (hplace j hj).symm)

/-- The order of completion around a node, the node finished last in front. -/
theorem exists_reverseFinishOrder_eq (g : Digraph n) (v : Fin n) :
    ∃ above below, g.reverseFinishOrder = above ++ v :: below ∧
      (∀ w ∈ above, g.finishTime v < g.finishTime w) ∧
      ∀ w, g.finishTime w < g.finishTime v → w ∈ below := by
  obtain ⟨above, below, hsplit⟩ := List.append_of_mem (g.mem_reverseFinishOrder v)
  have htimes := g.pairwise_finishTime
  rw [hsplit] at htimes
  obtain ⟨_, _, hacross⟩ := List.pairwise_append.mp htimes
  have habove : ∀ w ∈ above, g.finishTime v < g.finishTime w :=
    fun w hw => hacross w hw v List.mem_cons_self
  refine ⟨above, below, hsplit, habove, fun w hlt => ?_⟩
  have hmem := g.mem_reverseFinishOrder w
  rw [hsplit, List.mem_append, List.mem_cons] at hmem
  rcases hmem with hlater | rfl | hearlier
  · exact absurd (habove w hlater) hlt.not_gt
  · exact absurd hlt (lt_irrefl _)
  · exact hearlier

/-- Of the nodes that a node reaches, the one finished last leads back to it. -/
theorem exists_last (g : Digraph n) (u : Fin n) :
    ∃ last, g.MutuallyReachable u last ∧
      ∀ w, g.Reaches u w → g.finishTime w ≤ g.finishTime last := by
  obtain ⟨last, hpath, hmax⟩ :=
    Set.exists_max_image {w | g.Reaches u w} g.finishTime (Set.toFinite _) ⟨u, .refl u⟩
  obtain ⟨above, below, horder, habove, _⟩ := g.exists_reverseFinishOrder_eq last
  have hlater : ∀ w ∈ above, ¬ g.Reaches u w :=
    fun w hw hreaches => (habove w hw).not_ge (hmax w hreaches)
  have hback : g.Reaches last u :=
    reaches_of_forward horder (fun _ _ hadj hreaches => hreaches.tail hadj) hlater hpath (.refl u)
  exact ⟨last, ⟨hpath, hback⟩, hmax⟩

/-- An edge leads to a node that is finished later only if that node leads back. -/
theorem reaches_of_finishTime_lt (hadj : g.Adj u v) (hlt : g.finishTime u < g.finishTime v) :
    g.Reaches v u := by
  obtain ⟨above, below, horder, _, hbelow⟩ := g.exists_reverseFinishOrder_eq v
  obtain ⟨inside, outside, rfl, hinside, houtside⟩ := exists_inside horder
  rcases List.mem_append.mp (hbelow u hlt) with hin | hout
  · exact hinside u hin
  · exact absurd List.mem_cons_self (houtside u hout v hadj)

/-- The first pass finishes every node once, and a component after all components that it leads
to: its last node comes after every node of them.  The end of an edge comes before its start
unless the two share a component. -/
theorem finishOrder_targets_first (g : Digraph n) :
    g.finishOrder.Perm (List.finRange n) ∧
      (∀ u v, g.Reaches u v → ¬ g.Reaches v u →
        ∃ last, g.MutuallyReachable u last ∧
          (∀ w, g.MutuallyReachable u w → g.finishTime w ≤ g.finishTime last) ∧
          ∀ w, g.MutuallyReachable v w → g.finishTime w < g.finishTime last) ∧
      ∀ u v, g.Adj u v → ¬ g.Reaches v u → g.finishTime v < g.finishTime u := by
  refine ⟨g.finishOrder_perm, fun u v hpath hapart => ?_, fun u v hadj hapart => ?_⟩
  · obtain ⟨last, hlast, hmax⟩ := g.exists_last u
    refine ⟨last, hlast, fun w hw => hmax w hw.1, fun w hw => ?_⟩
    have hne : w ≠ last := by
      rintro rfl
      exact hapart (hw.1.trans hlast.2)
    exact lt_of_le_of_ne (hmax w (hpath.trans hw.1)) (g.finishTime_injective.ne hne)
  · have hne : v ≠ u := by
      rintro rfl
      exact hapart (.refl v)
    have hle : g.finishTime v ≤ g.finishTime u :=
      Nat.le_of_not_lt fun hlt => hapart (reaches_of_finishTime_lt hadj hlt)
    exact lt_of_le_of_ne hle (g.finishTime_injective.ne hne)

/-- A cycle of two nodes with an edge to a cycle of three. -/
def twoCycles : Digraph 5 := ofEdges [(0, 2), (0, 1), (1, 0), (2, 3), (3, 4), (4, 2)]

-- Node 1 is finished before the second cycle, to which it leads by node 0.
example : twoCycles.finishOrder = [1, 4, 3, 2, 0] := by cbv

theorem finishOrder_targets_first_twoCycles :
    twoCycles.Reaches 1 4 ∧ ¬ twoCycles.Reaches 4 1 ∧
      (∃ last, twoCycles.MutuallyReachable 1 last ∧
        twoCycles.finishTime 2 < twoCycles.finishTime last ∧
        twoCycles.finishTime 4 < twoCycles.finishTime last) ∧
      twoCycles.Adj 0 2 ∧ ¬ twoCycles.Reaches 2 0 ∧
      twoCycles.finishTime 2 < twoCycles.finishTime 0 := by
  have hadj : ∀ {u v}, twoCycles.Adj u v ↔
      (u, v) ∈ [(0, 2), (0, 1), (1, 0), (2, 3), (3, 4), (4, 2)] := adj_ofEdges
  have hstays : ∀ {u v}, twoCycles.Reaches u v → 2 ≤ u → 2 ≤ v := by
    intro u v hpath
    have hedges : ∀ u v, (u, v) ∈ [(0, 2), (0, 1), (1, 0), (2, 3), (3, 4), (4, 2)] →
        (2 : Fin 5) ≤ u → (2 : Fin 5) ≤ v := by decide
    induction hpath with
    | refl => exact id
    | step hedge _ ih => exact fun hu => ih (hedges _ _ (hadj.mp hedge) hu)
  have hback : twoCycles.Adj 1 0 := hadj.mpr (by decide)
  have hacross : twoCycles.Adj 0 2 := hadj.mpr (by decide)
  have hforth : twoCycles.Reaches 2 4 :=
    .step (v := 3) (hadj.mpr (by decide)) (.single (hadj.mpr (by decide)))
  have hround : twoCycles.Reaches 4 2 := .single (hadj.mpr (by decide))
  have hpath : twoCycles.Reaches 1 4 := .step hback (.step hacross hforth)
  have hapart : ¬ twoCycles.Reaches 4 1 :=
    fun hreaches => absurd (hstays hreaches (by decide)) (by decide)
  have honeway : ¬ twoCycles.Reaches 2 0 :=
    fun hreaches => absurd (hstays hreaches (by decide)) (by decide)
  obtain ⟨_, hcomponents, hedges⟩ := finishOrder_targets_first twoCycles
  obtain ⟨last, hlast, _, hbefore⟩ := hcomponents 1 4 hpath hapart
  refine ⟨hpath, hapart, ⟨last, hlast, ?_, hbefore 4 (.refl 4)⟩, hacross, honeway, ?_⟩
  · exact hbefore 2 ⟨hround, hforth⟩
  · exact hedges 0 2 hacross honeway

end IncludeGraph.Digraph
