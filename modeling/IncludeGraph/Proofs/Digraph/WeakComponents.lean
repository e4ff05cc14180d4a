import Mathlib.SetTheory.Cardinal.Finite
import IncludeGraph.Proofs.Digraph.Sweep

/-!
# Weakly connected components

Swept along its edges in both directions, a graph falls into the classes of the
equivalence that its edges generate.  Their number is that of the quotient, which no
numbering of the nodes and no order of the edges can change.
-/

namespace IncludeGraph.Digraph

variable {n : Nat} {g : Digraph n} {u v w : Fin n}

/-- Edges join the two nodes, whatever their direction. -/
abbrev Joined (g : Digraph n) : Fin n → Fin n → Prop :=
  Relation.EqvGen g.Adj

def neighbours (g : Digraph n) : Vector (List (Fin n)) n :=
  g.outgoing.zipWith (· ++ ·) g.incoming

theorem mem_get_neighbours : w ∈ g.neighbours.get v ↔ g.Adj v w ∨ g.Adj w v := by
  rw [neighbours, vector_get_zipWith, List.mem_append, get_outgoing, get_incoming, mem_successors,
    mem_predecessors]

theorem leads_neighbours_symm (hled : Leads g.neighbours v w) : Leads g.neighbours w v := by
  induction hled with
  | refl => exact .refl
  | tail _ hnext ih =>
      refine .head (mem_get_neighbours.mpr ?_) ih
      exact (mem_get_neighbours.mp hnext).symm

/-- Walks along edges in both directions join the nodes of a class. -/
theorem leads_neighbours_iff : Leads g.neighbours v w ↔ g.Joined v w := by
  constructor
  · intro hled
    induction hled with
    | refl => exact .refl _
    | tail _ hnext ih =>
        rcases mem_get_neighbours.mp hnext with hforth | hback
        · exact ih.trans _ _ _ (.rel _ _ hforth)
        · exact ih.trans _ _ _ (.symm _ _ (.rel _ _ hback))
  · intro hjoined
    induction hjoined with
    | rel _ _ hadj => exact .single (mem_get_neighbours.mpr (.inl hadj))
    | refl _ => exact .refl
    | symm _ _ _ ih => exact leads_neighbours_symm ih
    | trans _ _ _ _ _ hleft hright => exact hleft.trans hright

/-- A group of a sweep along edges in both directions leaves nothing of its class to
earlier groups. -/
theorem Swept.exists_class {roots : List (Fin n)} {groups : List (List (Fin n))}
    (h : Swept g.neighbours roots groups) :
    ∀ group ∈ groups, ∃ root, ∀ v, v ∈ group ↔ g.Joined root v := by
  induction groups with
  | nil => simp
  | cons group earlier ih =>
      obtain ⟨_, ⟨root, _, _, hroot, hgroup, _⟩, hearlier⟩ := h
      intro other hother
      rcases List.mem_cons.mp hother with rfl | hother
      · refine ⟨root, fun v => ?_⟩
        rw [hgroup v, leads_neighbours_iff, and_iff_right_iff_imp]
        intro hjoined hv
        have hback := leads_neighbours_symm (leads_neighbours_iff.mpr hjoined)
        exact ((hgroup root).mp hroot).1 (hearlier.closed_leads hv hback)
      · exact ih hearlier other hother

theorem nodup_weaklyConnected (g : Digraph n) : g.weaklyConnected.flatten.Nodup :=
  nodup_sweep g.neighbours (List.finRange n)

theorem mem_weaklyConnected (g : Digraph n) (v : Fin n) : v ∈ g.weaklyConnected.flatten :=
  mem_sweep (List.mem_finRange v)

theorem exists_class_of_mem_weaklyConnected {group : List (Fin n)}
    (hgroup : group ∈ g.weaklyConnected) : ∃ root, ∀ v, v ∈ group ↔ g.Joined root v :=
  (swept_sweep g.neighbours (List.finRange n)).exists_class group (List.mem_reverse.mpr hgroup)

/-- There are as many weakly connected components as classes of joined nodes. -/
theorem length_weaklyConnected (g : Digraph n) :
    g.weaklyConnected.length = Nat.card (Quot g.Adj) := by
  have hclass : ∀ i : Fin g.weaklyConnected.length,
      ∃ root, ∀ v, v ∈ g.weaklyConnected[i] ↔ g.Joined root v :=
    fun i => exists_class_of_mem_weaklyConnected (List.getElem_mem i.isLt)
  choose root hroot using hclass
  have hbijective : Function.Bijective fun i => Quot.mk g.Adj (root i) := by
    constructor
    · intro i j heq
      have hi : root i ∈ g.weaklyConnected[i] := (hroot i _).mpr (.refl _)
      have hj : root i ∈ g.weaklyConnected[j] :=
        (hroot j _).mpr (.symm _ _ (Quot.eqvGen_exact heq))
      have hapart := List.pairwise_iff_getElem.mp (List.nodup_flatten.mp g.nodup_weaklyConnected).2
      apply Fin.ext
      by_contra hne
      rcases Nat.lt_or_gt_of_ne hne with hlt | hlt
      · exact hapart i j i.isLt j.isLt hlt hi hj
      · exact hapart j i j.isLt i.isLt hlt hj hi
    · intro q
      obtain ⟨v, rfl⟩ := Quot.exists_rep q
      obtain ⟨group, hgroup, hv⟩ := List.mem_flatten.mp (g.mem_weaklyConnected v)
      obtain ⟨i, hi, rfl⟩ := List.mem_iff_getElem.mp hgroup
      exact ⟨⟨i, hi⟩, Quot.eqvGen_sound ((hroot ⟨i, hi⟩ v).mp hv)⟩
  rw [← Nat.card_congr (Equiv.ofBijective _ hbijective), Nat.card_fin]

end IncludeGraph.Digraph
