import Mathlib.SetTheory.Cardinal.NatCard
import IncludeGraph.Proofs.Digraph.WeakComponents

/-!
# Contracting the classes of mutually reachable nodes

A contraction has one node for each class of mutually reachable nodes, and its edges join
different classes that some edge joins.  Nodes that edges join in whatever direction stay
joined, so that both graphs have the same number of weakly connected components.  Loops and
edges inside of a class are lost, and a class of several nodes has an edge out of each of them.

How many classes of joined nodes there are is bounded from below by the number of edges: every
edge takes away one class at most.
-/

namespace IncludeGraph.Digraph

/-! ## Joining two classes -/

section Joining

variable {α : Type} {r s : α → α → Prop} {a b : α}

/-- The relation `s` is `r` with one more pair. -/
def AddsPair (r s : α → α → Prop) (a b : α) : Prop :=
  ∀ u v, s u v ↔ r u v ∨ u = a ∧ v = b

/-- The class of `s` that a class of `r` is part of. -/
def AddsPair.merge (h : AddsPair r s a b) : Quot r → Quot s :=
  Quot.map id fun u v huv => (h u v).mpr (.inl huv)

open Classical in
/-- A class of `r` in a class of `s`.  Of the two classes that the pair joins it is the one of the
second element. -/
noncomputable def AddsPair.split (h : AddsPair r s a b) : Quot s → Quot r :=
  Quot.lift (fun w => if Quot.mk r w = Quot.mk r a then Quot.mk r b else Quot.mk r w) <| by
    intro u v huv
    rcases (h u v).mp huv with hr | ⟨rfl, rfl⟩
    · rw [Quot.sound hr]
    · rw [if_pos rfl, ite_self]

theorem AddsPair.split_merge (h : AddsPair r s a b) {q : Quot r} (hq : q ≠ Quot.mk r a) :
    h.split (h.merge q) = q := by
  obtain ⟨w, rfl⟩ := Quot.exists_rep q
  exact if_neg hq

/-- One more pair takes away one class at most. -/
theorem AddsPair.card_quot_le [Finite α] (h : AddsPair r s a b) :
    Nat.card (Quot r) ≤ Nat.card (Quot s) + 1 := by
  -- All classes but the one that may be joined to another stay apart.
  have hinjective : Function.Injective fun q : {q // q ≠ Quot.mk r a} => h.merge q.1 := by
    rintro ⟨q, hq⟩ ⟨q', hq'⟩ heq
    have hsplit := congrArg h.split heq
    dsimp only at hsplit
    rw [h.split_merge hq, h.split_merge hq'] at hsplit
    exact Subtype.ext hsplit
  classical
  calc
    Nat.card (Quot r) = Nat.card {q // q ≠ Quot.mk r a} + 1 := by
      rw [← Nat.card_congr (Equiv.optionSubtypeNe (Quot.mk r a)), Finite.card_option]
    _ ≤ Nat.card (Quot s) + 1 :=
      Nat.add_le_add_right (Nat.card_le_card_of_injective _ hinjective) 1

/-- There are no more elements than pairs and classes that the pairs leave. -/
theorem card_le_card_quot_add_length [Finite α] (pairs : List (α × α)) :
    Nat.card α ≤ Nat.card (Quot fun u v => (u, v) ∈ pairs) + pairs.length := by
  induction pairs with
  | nil =>
      have hinjective : Function.Injective (Quot.mk fun u v : α => (u, v) ∈ []) :=
        fun u v heq => congrArg (Quot.lift id (by simp)) heq
      exact Nat.card_le_card_of_injective _ hinjective
  | cons pair pairs ih =>
      have hadds : AddsPair (fun u v => (u, v) ∈ pairs) (fun u v => (u, v) ∈ pair :: pairs)
          pair.1 pair.2 := by
        intro u v
        simp only [List.mem_cons, Prod.ext_iff]
        exact or_comm
      have hle := hadds.card_quot_le
      rw [List.length_cons]
      omega

end Joining

variable {n m : Nat}

/-- A graph has no more nodes than classes of joined nodes and edges. -/
theorem le_card_quot_add_edgeCount (g : Digraph n) :
    n ≤ Nat.card (Quot g.Adj) + g.edgeCount := by
  have hle := card_le_card_quot_add_length g.edges.toList
  simp only [Array.mem_toList_iff, Nat.card_fin, Array.length_toList] at hle
  exact hle

/-! ## Contractions -/

/-- The nodes of `q` are the classes of mutually reachable nodes of `g`, and its edges join
different classes that some edge of `g` joins. -/
structure Contracts (home : Fin n → Fin m) (g : Digraph n) (q : Digraph m) : Prop where
  surjective : Function.Surjective home
  home_eq_iff : ∀ u v, home u = home v ↔ g.MutuallyReachable u v
  adj_iff : ∀ i j, q.Adj i j ↔ i ≠ j ∧ ∃ u v, g.Adj u v ∧ home u = i ∧ home v = j

theorem Reaches.joined {g : Digraph n} {u v : Fin n} (hpath : g.Reaches u v) :
    g.Joined u v := by
  induction hpath with
  | refl u => exact .refl u
  | step hadj _ ih => exact .trans _ _ _ (.rel _ _ hadj) ih

/-- The first edge of a path that is no loop at its start. -/
theorem Reaches.exists_adj_ne {g : Digraph n} {u v : Fin n} (hpath : g.Reaches u v)
    (hne : u ≠ v) : ∃ w, w ≠ u ∧ g.Adj u w ∧ g.Reaches w v := by
  induction hpath with
  | refl u => exact absurd rfl hne
  | @step u w v hadj hrest ih =>
      by_cases hloop : w = u
      · subst hloop
        exact ih hne
      · exact ⟨w, hloop, hadj, hrest⟩

def edgeSet (g : Digraph n) : Finset (Fin n × Fin n) := g.edges.toList.toFinset

theorem mem_edgeSet {g : Digraph n} {e : Fin n × Fin n} : e ∈ g.edgeSet ↔ g.Adj e.1 e.2 := by
  rw [edgeSet, List.mem_toFinset, Array.mem_toList_iff]
  rfl

theorem card_edgeSet_le (g : Digraph n) : g.edgeSet.card ≤ g.edgeCount :=
  g.edges.toList.toFinset_card_le

theorem card_edgeSet {g : Digraph n} (hnodup : g.edges.toList.Nodup) :
    g.edgeSet.card = g.edgeCount :=
  List.toFinset_card_of_nodup hnodup

/-- The nodes with a self-loop. -/
def loops (g : Digraph n) : Finset (Fin n) := {v | g.Adj v v}

def nodesOf (home : Fin n → Fin m) (i : Fin m) : Finset (Fin n) := {v | home v = i}

/-- The nodes that share their class with another one. -/
def mated (home : Fin n → Fin m) : Finset (Fin n) := {v | ∃ w, w ≠ v ∧ home w = home v}

theorem mem_nodesOf {home : Fin n → Fin m} {i : Fin m} {v : Fin n} :
    v ∈ nodesOf home i ↔ home v = i :=
  Finset.mem_filter_univ v

theorem mem_mated {home : Fin n → Fin m} {v : Fin n} :
    v ∈ mated home ↔ 1 < (nodesOf home (home v)).card := by
  rw [mated, Finset.mem_filter_univ]
  constructor
  · rintro ⟨w, hne, hshared⟩
    exact Finset.one_lt_card.mpr ⟨w, mem_nodesOf.mpr hshared, v, mem_nodesOf.mpr rfl, hne⟩
  · intro hlarge
    obtain ⟨w, hw, hne⟩ := Finset.exists_mem_ne hlarge v
    exact ⟨w, hne, mem_nodesOf.mp hw⟩

/-- All nodes of a class share it with another one, or none does. -/
theorem card_mated (home : Fin n → Fin m) :
    (mated home).card = ∑ i with 1 < (nodesOf home i).card, (nodesOf home i).card := by
  have hlarge : ((mated home : Finset (Fin n)) : Set (Fin n)).MapsTo home
      (({i | 1 < (nodesOf home i).card} : Finset (Fin m)) : Set (Fin m)) := by
    intro v hv
    simpa using mem_mated.mp hv
  rw [Finset.card_eq_sum_card_fiberwise hlarge]
  apply Finset.sum_congr rfl
  intro i hi
  congr 1
  ext v
  rw [Finset.mem_filter, mem_nodesOf, and_iff_right_iff_imp]
  rintro rfl
  exact mem_mated.mpr (by simpa using hi)

namespace Contracts

variable {home : Fin n → Fin m} {g : Digraph n} {q : Digraph m} {u v : Fin n}

theorem size_le (h : Contracts home g q) : m ≤ n := by
  simpa using Fintype.card_le_of_surjective home h.surjective

theorem card_quot_le (g : Digraph n) : Nat.card (Quot g.Adj) ≤ n := by
  simpa using Nat.card_le_card_of_surjective (Quot.mk g.Adj) Quot.mk_surjective

theorem mk_eq (h : Contracts home g q) (hshared : home u = home v) :
    Quot.mk g.Adj u = Quot.mk g.Adj v :=
  Quot.eqvGen_sound ((h.home_eq_iff u v).mp hshared).1.joined

/-- The class of joined classes that a class of joined nodes becomes. -/
def joinedHome (h : Contracts home g q) : Quot g.Adj → Quot q.Adj :=
  Quot.lift (fun v => Quot.mk _ (home v)) <| by
    intro u v hadj
    by_cases hshared : home u = home v
    · rw [hshared]
    · exact Quot.sound ((h.adj_iff _ _).mpr ⟨hshared, u, v, hadj, rfl, rfl⟩)

/-- The class of joined nodes that a class of joined classes comes from. -/
noncomputable def joinedNodes (h : Contracts home g q) : Quot q.Adj → Quot g.Adj :=
  Quot.lift (fun i => Quot.mk _ (Function.surjInv h.surjective i)) <| by
    intro i j hadj
    obtain ⟨_, u, v, huv, rfl, rfl⟩ := (h.adj_iff i j).mp hadj
    rw [h.mk_eq (Function.surjInv_eq h.surjective (home u)), Quot.sound huv,
      h.mk_eq (Function.surjInv_eq h.surjective (home v))]

/-- Contracting joins no more nodes than are joined anyway. -/
theorem joinedHome_bijective (h : Contracts home g q) : Function.Bijective h.joinedHome := by
  constructor
  · apply Function.LeftInverse.injective (g := h.joinedNodes)
    rintro ⟨v⟩
    exact h.mk_eq (Function.surjInv_eq h.surjective (home v))
  · rintro ⟨i⟩
    obtain ⟨v, rfl⟩ := h.surjective i
    exact ⟨Quot.mk _ v, rfl⟩

theorem card_quot_eq (h : Contracts home g q) :
    Nat.card (Quot q.Adj) = Nat.card (Quot g.Adj) :=
  (Nat.card_congr (Equiv.ofBijective _ h.joinedHome_bijective)).symm

/-! ## Edges that are lost -/

/-- Different edges of the contraction come from different edges between classes. -/
theorem card_edgeSet_le_apart (h : Contracts home g q) :
    q.edgeSet.card ≤ (g.edgeSet.filter fun e => ¬ home e.1 = home e.2).card := by
  have hsubset : q.edgeSet ⊆
      (g.edgeSet.filter fun e => ¬ home e.1 = home e.2).image (Prod.map home home) := by
    rintro ⟨i, j⟩ hedge
    obtain ⟨hne, u, v, hadj, rfl, rfl⟩ := (h.adj_iff i j).mp (mem_edgeSet.mp hedge)
    exact Finset.mem_image.mpr
      ⟨(u, v), Finset.mem_filter.mpr ⟨mem_edgeSet.mpr hadj, hne⟩, rfl⟩
  exact (Finset.card_le_card hsubset).trans Finset.card_image_le

theorem card_loops_le (home : Fin n → Fin m) (g : Digraph n) :
    g.loops.card ≤ ((g.edgeSet.filter fun e => home e.1 = home e.2).filter
      fun e => e.1 = e.2).card := by
  have hsubset : g.loops ⊆ ((g.edgeSet.filter fun e => home e.1 = home e.2).filter
      fun e => e.1 = e.2).image Prod.fst := by
    intro v hloop
    have hadj : g.Adj v v := by simpa [loops] using hloop
    refine Finset.mem_image.mpr ⟨(v, v), ?_, rfl⟩
    simp [mem_edgeSet, hadj]
  exact (Finset.card_le_card hsubset).trans Finset.card_image_le

/-- From every node of a class of several nodes an edge leads to another one of them. -/
theorem card_mated_le (h : Contracts home g q) :
    (mated home).card ≤ ((g.edgeSet.filter fun e => home e.1 = home e.2).filter
      fun e => ¬ e.1 = e.2).card := by
  have hsubset : mated home ⊆ ((g.edgeSet.filter fun e => home e.1 = home e.2).filter
      fun e => ¬ e.1 = e.2).image Prod.fst := by
    intro v hmated
    obtain ⟨w, hne, hshared⟩ : ∃ w, w ≠ v ∧ home w = home v := by simpa [mated] using hmated
    obtain ⟨hback, hforth⟩ := (h.home_eq_iff w v).mp hshared
    obtain ⟨x, hx, hadj, hrest⟩ := hforth.exists_adj_ne hne.symm
    have hclass : home v = home x :=
      (h.home_eq_iff v x).mpr ⟨.single hadj, hrest.trans hback⟩
    refine Finset.mem_image.mpr ⟨(v, x), ?_, rfl⟩
    simp [mem_edgeSet, hadj, hclass, hx.symm]
  exact (Finset.card_le_card hsubset).trans Finset.card_image_le

/-- The edges of a contraction, the loops and the nodes of classes of several nodes are no more
than the edges of the graph. -/
theorem edgeCount_add_le (h : Contracts home g q) (hnodup : q.edges.toList.Nodup) :
    q.edgeCount + g.loops.card + (mated home).card ≤ g.edgeCount := by
  -- Edges between classes, loops, and edges between different nodes of a class.
  have hapart := h.card_edgeSet_le_apart
  have hloops := card_loops_le home g
  have hmated := h.card_mated_le
  have hedges := Finset.card_filter_add_card_filter_not (s := g.edgeSet)
    fun e => home e.1 = home e.2
  have hinner := Finset.card_filter_add_card_filter_not
    (s := g.edgeSet.filter fun e => home e.1 = home e.2) fun e => e.1 = e.2
  have hle := g.card_edgeSet_le
  rw [card_edgeSet hnodup] at hapart
  omega

end Contracts

end IncludeGraph.Digraph
