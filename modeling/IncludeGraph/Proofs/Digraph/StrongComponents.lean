import IncludeGraph.Proofs.Digraph.DepthFirst
import IncludeGraph.Proofs.Digraph.Sweep

/-!
# Strongly connected components

The second pass of the component search.  Its roots come in the reverse order of
completion and its table holds the predecessors; then the nodes that a root claims are
those that it reaches in turn (`mem_group_iff`), so that the groups are the classes of
mutual reachability.
-/

namespace IncludeGraph.Digraph

variable {n : Nat} {g : Digraph n}

theorem leads_incoming_iff {u v : Fin n} : Leads g.incoming v u ↔ g.Reaches u v := by
  rw [reaches_iff_reflTransGen, Leads, ← Relation.reflTransGen_swap]
  simp

/-- Swept along the incoming edges in reverse order of completion, a root claims the
nodes that it reaches and that reach it. -/
theorem mem_group_iff {group : List (Fin n)} {earlier : List (List (Fin n))}
    (h : Swept g.incoming g.reverseFinishOrder (group :: earlier)) :
    ∃ root, ∀ v, v ∈ group ↔ g.MutuallyReachable root v := by
  obtain ⟨_, ⟨root, passed, ahead, hroot, hgroup, hroots, hpassed⟩, hearlier⟩ := h
  simp only [leads_incoming_iff] at hgroup
  have hbackward : ∀ {u v}, g.Reaches u v → v ∈ earlier.flatten → u ∈ earlier.flatten :=
    fun hpath hv => hearlier.closed_leads hv (leads_incoming_iff.mpr hpath)
  have hforward : ∀ u w, g.Adj u w → u ∉ earlier.flatten → w ∉ earlier.flatten :=
    fun u w hadj hu hw => hu (hbackward (.single hadj) hw)
  refine ⟨root, fun v => ?_⟩
  rw [hgroup v]
  constructor
  · rintro ⟨hv, hpath⟩
    have hpassed' : ∀ u ∈ passed, ¬ u ∉ earlier.flatten :=
      fun u hu => not_not.mpr (hpassed u hu)
    exact ⟨reaches_of_forward hroots hforward hpassed' hpath hv, hpath⟩
  · rintro ⟨hforth, hback⟩
    exact ⟨mt (hbackward hforth) ((hgroup root).mp hroot).1, hback⟩

theorem Swept.mem_iff {groups : List (List (Fin n))}
    (h : Swept g.incoming g.reverseFinishOrder groups) :
    ∀ group ∈ groups, ∃ root, ∀ v, v ∈ group ↔ g.MutuallyReachable root v := by
  induction groups with
  | nil => simp
  | cons group earlier ih =>
      intro other hother
      rcases List.mem_cons.mp hother with rfl | hother
      · exact mem_group_iff h
      · exact ih h.2.2 other hother

theorem nodup_stronglyConnected (g : Digraph n) : g.stronglyConnected.flatten.Nodup :=
  nodup_sweep g.incoming g.reverseFinishOrder

theorem mem_stronglyConnected (g : Digraph n) (v : Fin n) : v ∈ g.stronglyConnected.flatten :=
  mem_sweep (g.mem_reverseFinishOrder v)

theorem exists_root_of_mem_stronglyConnected {group : List (Fin n)}
    (hgroup : group ∈ g.stronglyConnected) :
    ∃ root, ∀ v, v ∈ group ↔ g.MutuallyReachable root v :=
  (swept_sweep g.incoming g.reverseFinishOrder).mem_iff group (List.mem_reverse.mpr hgroup)

/-- A component is the class of any of its nodes. -/
theorem mem_component_iff {group : List (Fin n)} (hgroup : group ∈ g.stronglyConnected)
    {u : Fin n} (hu : u ∈ group) (v : Fin n) : v ∈ group ↔ g.MutuallyReachable u v := by
  obtain ⟨root, hmem⟩ := exists_root_of_mem_stronglyConnected hgroup
  have hru := (hmem u).mp hu
  rw [hmem v]
  exact ⟨hru.symm.trans, hru.trans⟩

theorem ne_nil_of_mem_stronglyConnected {group : List (Fin n)}
    (hgroup : group ∈ g.stronglyConnected) : group ≠ [] := by
  obtain ⟨root, hmem⟩ := exists_root_of_mem_stronglyConnected hgroup
  exact List.ne_nil_of_mem ((hmem root).mpr (.refl root))

/-- Nodes share a component exactly if each of them reaches the other. -/
theorem same_component_iff {u v : Fin n} :
    (∃ group ∈ g.stronglyConnected, u ∈ group ∧ v ∈ group) ↔ g.MutuallyReachable u v := by
  constructor
  · rintro ⟨group, hgroup, hu, hv⟩
    exact (mem_component_iff hgroup hu v).mp hv
  · intro hmutual
    obtain ⟨group, hgroup, hu⟩ := List.mem_flatten.mp (g.mem_stronglyConnected u)
    exact ⟨group, hgroup, hu, (mem_component_iff hgroup hu v).mpr hmutual⟩

/-- The component search splits the nodes into the classes of mutual reachability: no
group is empty, every node is in exactly one group, and once. -/
theorem stronglyConnected_classes (g : Digraph n) :
    (∀ group ∈ g.stronglyConnected, group ≠ []) ∧
      (∀ v, g.stronglyConnected.flatten.count v = 1) ∧
      ∀ u v, (∃ group ∈ g.stronglyConnected, u ∈ group ∧ v ∈ group) ↔
        g.MutuallyReachable u v := by
  refine ⟨fun _ => ne_nil_of_mem_stronglyConnected, fun v => ?_, fun u v => same_component_iff⟩
  exact List.count_eq_one_of_mem g.nodup_stronglyConnected (g.mem_stronglyConnected v)

/-- No edge leads from a component to one that is found before it. -/
theorem pairwise_stronglyConnected (g : Digraph n) :
    g.stronglyConnected.Pairwise fun earlier later =>
      ∀ v ∈ earlier, ∀ w ∈ later, ¬ g.Adj w v := by
  apply (pairwise_sweep g.incoming g.reverseFinishOrder).imp
  intro earlier later hentry v hv w hw hadj
  apply hentry v hv w hw
  rw [get_incoming]
  exact mem_predecessors.mpr hadj

/-- The check for cycles finds every directed cycle, self-loops included. -/
theorem isAcyclic_iff : g.isAcyclic = true ↔ ¬ g.HasCycle := by
  simp only [isAcyclic, Bool.and_eq_true, List.all_eq_true, Array.all_eq_true', beq_iff_eq,
    bne_iff_ne]
  constructor
  · rintro ⟨hsingle, hloopless⟩ ⟨u, v, hadj, hback⟩
    obtain ⟨group, hgroup, hu, hv⟩ := same_component_iff.mpr ⟨.single hadj, hback⟩
    obtain ⟨x, rfl⟩ := List.length_eq_one_iff.mp (hsingle group hgroup)
    apply hloopless (u, v) hadj
    rw [List.mem_singleton.mp hu, List.mem_singleton.mp hv]
  · intro hacyclic
    constructor
    · intro group hgroup
      have hnodup := (List.nodup_flatten.mp g.nodup_stronglyConnected).1 group hgroup
      match group, ne_nil_of_mem_stronglyConnected hgroup with
      | [u], _ => rfl
      | u :: v :: rest, _ =>
          have hmutual := (mem_component_iff hgroup List.mem_cons_self v).mp (by simp)
          have heq := eq_of_mutuallyReachable hacyclic hmutual
          simp [heq] at hnodup
    · rintro ⟨u, v⟩ hadj hloop
      exact hacyclic ⟨u, v, hadj, by rw [show u = v from hloop]; exact .refl v⟩

end IncludeGraph.Digraph
