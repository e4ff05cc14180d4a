import IncludeGraph.Proofs.Digraph.Reachability

/-!
# Chains of edges

The length of the longest chain of edges that starts at a node.  In an acyclic graph
every node has one; its nodes fall into levels by that length.  In a graph with
cycles the nodes that lead to a cycle have chains of every length and no level.
-/

namespace IncludeGraph.Digraph

variable {n : Nat} {g : Digraph n} {v w : Fin n} {d k : Nat}

/-- A chain of `k` edges, each continuing the one before, starts at the node. -/
def Chain (g : Digraph n) : Nat → Fin n → Prop
  | 0, _ => True
  | k + 1, v => ∃ w, g.Adj v w ∧ g.Chain k w

instance decidableChain (g : Digraph n) : (k : Nat) → (v : Fin n) → Decidable (g.Chain k v)
  | 0, _ => .isTrue trivial
  | k + 1, v =>
      have := decidableChain g k
      inferInstanceAs (Decidable (∃ w, g.Adj v w ∧ g.Chain k w))

/-- The longest chain of edges that starts at `v` has `d` edges. -/
def LongestChain (g : Digraph n) (v : Fin n) (d : Nat) : Prop :=
  g.Chain d v ∧ ∀ k, g.Chain k v → k ≤ d

/-- The last edges of a chain can be left out. -/
theorem Chain.of_le (h : g.Chain k v) (hle : d ≤ k) : g.Chain d v := by
  induction d generalizing k v with
  | zero => trivial
  | succ d ih =>
      obtain ⟨k, rfl⟩ := Nat.exists_eq_add_of_le hle
      rw [Nat.add_right_comm] at h
      obtain ⟨w, hadj, hrest⟩ := h
      exact ⟨w, hadj, ih hrest (Nat.le_add_right d k)⟩

/-- A chain of greatest length is one that no chain exceeds by one edge. -/
theorem longestChain_iff : g.LongestChain v d ↔ g.Chain d v ∧ ¬ g.Chain (d + 1) v := by
  constructor
  · rintro ⟨hchain, hmax⟩
    exact ⟨hchain, fun hlonger => Nat.not_succ_le_self d (hmax (d + 1) hlonger)⟩
  · rintro ⟨hchain, hmax⟩
    refine ⟨hchain, fun k hk => ?_⟩
    by_contra hlt
    exact hmax (hk.of_le (by omega))

/-- A node has no chain of a length if it has none that is shorter by one edge, or none longer
than that. -/
theorem not_chain_succ_iff : ¬ g.Chain (d + 1) v ↔ ¬ g.Chain d v ∨ g.LongestChain v d := by
  rw [longestChain_iff]
  constructor
  · intro hshort
    by_cases hchain : g.Chain d v
    · exact .inr ⟨hchain, hshort⟩
    · exact .inl hchain
  · rintro (hshort | ⟨_, hshort⟩)
    · exact mt (Chain.of_le · (Nat.le_succ d)) hshort
    · exact hshort

instance (g : Digraph n) (v : Fin n) (d : Nat) : Decidable (g.LongestChain v d) :=
  decidable_of_iff _ longestChain_iff.symm

/-- The nodes whose longest chain has `d` edges. -/
def level (g : Digraph n) (d : Nat) : List (Fin n) :=
  (List.finRange n).filter fun v => g.LongestChain v d

@[simp]
theorem mem_level : v ∈ g.level d ↔ g.LongestChain v d := by
  simp [level]

theorem nodup_level (g : Digraph n) (d : Nat) : (g.level d).Nodup :=
  (List.nodup_finRange n).filter _

theorem longestChain_zero_iff : g.LongestChain v 0 ↔ ∀ w, ¬ g.Adj v w := by
  rw [longestChain_iff]
  simp [Chain]

/-- A node has at most one level. -/
theorem LongestChain.unique (hd : g.LongestChain v d) (hk : g.LongestChain v k) : d = k :=
  Nat.le_antisymm (hk.2 d hd.1) (hd.2 k hk.1)

/-- An edge leads to a node with shorter chains. -/
theorem LongestChain.lt_of_adj (hd : g.LongestChain v d) (hk : g.LongestChain w k)
    (hadj : g.Adj v w) : k < d :=
  hd.2 (k + 1) ⟨w, hadj, hk.1⟩

/-- Where no longest chain has `d` edges, a chain of `d` edges can be continued without end,
which takes it around a cycle. -/
theorem leadsToCycle_of_level_eq_nil (hlevel : g.level d = []) (hchain : g.Chain d v) :
    g.LeadsToCycle v := by
  induction v using g.wellFounded_not_leadsToCycle.induction with
  | _ v ih =>
      by_contra hcalm
      have hlonger : g.Chain (d + 1) v := by
        by_contra hmax
        have hmem : v ∈ g.level d := mem_level.mpr (longestChain_iff.mpr ⟨hchain, hmax⟩)
        rw [hlevel] at hmem
        exact List.not_mem_nil hmem
      obtain ⟨w, hadj, hrest⟩ := hlonger
      exact hcalm ((ih w ⟨hadj, hcalm⟩ hrest).of_adj hadj)

/-- Chains of every length start at a node that leads to a cycle. -/
theorem LeadsToCycle.chain (h : g.LeadsToCycle v) (k : Nat) : g.Chain k v := by
  induction k generalizing v with
  | zero => trivial
  | succ k ih =>
      obtain ⟨w, hadj, hw⟩ := h.exists_adj
      exact ⟨w, hadj, ih hw⟩

theorem leadsToCycle_iff_of_level_eq_nil (hlevel : g.level d = []) :
    g.LeadsToCycle v ↔ g.Chain d v :=
  ⟨fun h => h.chain d, leadsToCycle_of_level_eq_nil hlevel⟩

/-- A longest chain passes through a node of every level below its own. -/
theorem LongestChain.exists_of_le (h : g.LongestChain v d) (hle : k ≤ d) :
    ∃ w, g.LongestChain w k := by
  induction d generalizing v with
  | zero =>
      rw [Nat.le_zero.mp hle]
      exact ⟨v, h⟩
  | succ d ih =>
      obtain ⟨⟨w, hadj, hrest⟩, hmax⟩ := h
      have hw : g.LongestChain w d :=
        ⟨hrest, fun j hj => Nat.le_of_succ_le_succ (hmax (j + 1) ⟨w, hadj, hj⟩)⟩
      rcases Nat.le_succ_iff.mp hle with hle | rfl
      · exact ih hw hle
      · exact ⟨v, ⟨w, hadj, hrest⟩, hmax⟩

/-- A longest chain has fewer edges than the graph has nodes. -/
theorem LongestChain.lt_size (h : g.LongestChain v d) : d < n := by
  have hlevels : ∀ k : Fin (d + 1), ∃ w, g.LongestChain w k :=
    fun k => h.exists_of_le (Nat.le_of_lt_succ k.isLt)
  choose node hnode using hlevels
  have hinjective : Function.Injective node := by
    intro j k heq
    apply Fin.ext
    exact (hnode j).unique (heq ▸ hnode k)
  have hcard := Fintype.card_le_of_injective node hinjective
  rw [Fintype.card_fin, Fintype.card_fin] at hcard
  exact hcard

theorem level_size_eq_nil (g : Digraph n) : g.level n = [] := by
  apply List.eq_nil_iff_forall_not_mem.mpr
  intro v hv
  exact Nat.lt_irrefl n (mem_level.mp hv).lt_size

/-- The nodes that lead to a cycle are those with chains of every length. -/
theorem leadsToCycle_iff_forall_chain : g.LeadsToCycle v ↔ ∀ k, g.Chain k v :=
  ⟨fun h k => h.chain k, fun h => leadsToCycle_of_level_eq_nil g.level_size_eq_nil (h n)⟩

instance (g : Digraph n) (v : Fin n) : Decidable (g.LeadsToCycle v) :=
  decidable_of_iff _ (leadsToCycle_iff_of_level_eq_nil g.level_size_eq_nil).symm

/-- A chain of some length that a longer chain does not exceed is a longest chain. -/
theorem exists_longestChain_of_not_chain (hchain : ¬ g.Chain k v) :
    ∃ d < k, g.LongestChain v d := by
  induction k with
  | zero => exact absurd trivial hchain
  | succ k ih =>
      by_cases hshort : g.Chain k v
      · exact ⟨k, Nat.lt_succ_self k, longestChain_iff.mpr ⟨hshort, hchain⟩⟩
      · obtain ⟨d, hd, hlongest⟩ := ih hshort
        exact ⟨d, Nat.lt_succ_of_lt hd, hlongest⟩

/-- Below a length that no chain has, the levels list every node once. -/
theorem levels_perm (hend : ∀ v, ¬ g.Chain k v) :
    ((List.range k).flatMap g.level).Perm (List.finRange n) := by
  have hnodup : ((List.range k).flatMap g.level).Nodup := by
    refine List.nodup_flatMap.mpr ⟨fun d _ => g.nodup_level d, ?_⟩
    apply List.nodup_range.imp
    intro d e hne v hd he
    exact hne ((mem_level.mp hd).unique (mem_level.mp he))
  apply (List.perm_ext_iff_of_nodup hnodup (List.nodup_finRange n)).mpr
  intro v
  obtain ⟨d, hd, hlongest⟩ := exists_longestChain_of_not_chain (hend v)
  simp only [List.mem_finRange, iff_true, List.mem_flatMap, List.mem_range, mem_level]
  exact ⟨d, hd, hlongest⟩

/-! ## Counting edges -/

/-- A property that splits into two which exclude each other is counted in parts. -/
theorem countP_eq_add {α : Type} {whole left right : α → Bool} {values : List α}
    (hsplit : ∀ x, whole x = true ↔ left x = true ∨ right x = true)
    (hapart : ∀ x, left x = true → right x = false) :
    values.countP whole = values.countP left + values.countP right := by
  induction values with
  | nil => rfl
  | cons x values ih =>
      rw [List.countP_cons, List.countP_cons, List.countP_cons, ih]
      have hx := hsplit x
      cases hleft : left x with
      | true =>
          rw [hleft] at hx
          simp only [hapart x hleft, hx.mpr (.inl rfl), if_true, Bool.false_eq_true, if_false]
          omega
      | false =>
          rw [hleft] at hx
          have hwhole : whole x = right x := by
            rw [Bool.eq_iff_iff, hx]
            simp
          simp only [hwhole, Bool.false_eq_true, if_false]
          omega

theorem count_successors (g : Digraph n) (v w : Fin n) :
    (g.successors v).count w = g.edges.toList.count (v, w) := by
  rw [successors, List.count_reverse, List.count_filterMap, List.count_eq_countP]
  apply List.countP_congr
  rintro ⟨x, y⟩ _
  by_cases hx : x = v <;> simp [hx]

theorem count_predecessors (g : Digraph n) (v w : Fin n) :
    (g.predecessors w).count v = g.edges.toList.count (v, w) := by
  rw [predecessors, List.count_reverse, List.count_filterMap, List.count_eq_countP]
  apply List.countP_congr
  rintro ⟨x, y⟩ _
  by_cases hy : y = w <;> simp [hy]

/-- Going through the predecessors of a group of nodes meets a node once for each of
its edges into the group. -/
theorem count_flatMap_predecessors {group : List (Fin n)} (hnodup : group.Nodup) (v : Fin n) :
    (group.flatMap g.predecessors).count v = (g.successors v).countP (· ∈ group) := by
  induction group with
  | nil => simp
  | cons w group ih =>
      obtain ⟨hw, hrest⟩ := List.nodup_cons.mp hnodup
      rw [List.flatMap_cons, List.count_append, ih hrest, count_predecessors, ← count_successors,
        List.count_eq_countP]
      refine (countP_eq_add ?_ ?_).symm
      · simp
      · intro x hx
        rw [beq_iff_eq.mp hx]
        simpa using hw

end IncludeGraph.Digraph
