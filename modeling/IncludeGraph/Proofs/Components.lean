import IncludeGraph.Proofs.Condensation

/-!
# Components as classes of cycle-mates

`IsClass` says in terms of names what a component is: the sorted list of a file and all
its cycle-mates, with a mark if it is a single file that includes itself.  The components
of the graph of a list of units are all such classes, each of them once, so that they
depend on the names and includes of the units alone.
-/

namespace IncludeGraph

variable {units : List SourceUnit}

namespace FileGraph

variable {g : FileGraph}

/-! ## Groups of nodes and their members -/

/-- A component lists the files of a group of mutually reachable nodes. -/
theorem exists_group_of_mem_components {component : Component}
    (hcomponent : component ∈ g.components) : ∃ group ∈ g.links.stronglyConnected,
      component.members = Text.sortNames (group.map g.names.get) ∧
      component.selfLoop = (match group with | [i] => g.selfLoops.get i | _ => false) := by
  obtain ⟨group, hgroup, rfl⟩ := List.mem_map.mp hcomponent
  exact ⟨group, hgroup, rfl, rfl⟩

theorem members_ne_nil {component : Component} (hcomponent : component ∈ g.components) :
    component.members ≠ [] := by
  obtain ⟨group, hgroup, hmembers, _⟩ := exists_group_of_mem_components hcomponent
  obtain ⟨i, hi⟩ := List.exists_mem_of_ne_nil _ (Digraph.ne_nil_of_mem_stronglyConnected hgroup)
  rw [hmembers]
  exact List.ne_nil_of_mem (Text.mem_sortNames.mpr (List.mem_map_of_mem hi))

/-- The members of a component are listed in order, each of them once. -/
theorem pairwise_members (hnodup : g.names.toList.Nodup) {component : Component}
    (hcomponent : component ∈ g.components) : component.members.Pairwise (· < ·) := by
  obtain ⟨group, _, hmembers, _⟩ := exists_group_of_mem_components hcomponent
  have hall : (g.components.flatMap (·.members)).Nodup :=
    g.members_components_perm.nodup_iff.mpr hnodup
  have hdistinct : component.members.Nodup := (List.nodup_flatMap.mp hall).1 component hcomponent
  have hsorted : component.members.Pairwise (· ≤ ·) := hmembers ▸ Text.pairwise_sortNames _
  exact (hsorted.and hdistinct).imp fun h => lt_of_le_of_ne h.1 h.2

/-- No two components have the same members. -/
theorem nodup_map_members (hnodup : g.names.toList.Nodup) :
    (g.components.map (·.members)).Nodup := by
  have hall : (g.components.flatMap (·.members)).Nodup :=
    g.members_components_perm.nodup_iff.mpr hnodup
  refine List.pairwise_map.mpr ((List.nodup_flatMap.mp hall).2.imp_of_mem ?_)
  intro component other hcomponent _ hdisjoint hmembers
  obtain ⟨name, hname⟩ := List.exists_mem_of_ne_nil _ (members_ne_nil hcomponent)
  have hother : name ∈ other.members := hmembers ▸ hname
  exact hdisjoint hname hother

/-- No component is listed twice. -/
theorem nodup_components (hnodup : g.names.toList.Nodup) : g.components.Nodup :=
  .of_map _ (nodup_map_members hnodup)

/-! ## Files that include themselves -/

theorem get_foldl_selfLoops {n : Nat} (edges : List (Fin n × Fin n)) (marks : Marks n)
    (v : Fin n) :
    (edges.foldl (fun marks e => if e.1 = e.2 then marks.set e.1 true e.1.isLt else marks)
        marks).get v = true ↔ (v, v) ∈ edges ∨ marks.get v = true := by
  induction edges generalizing marks with
  | nil => simp
  | cons e edges ih =>
      rw [List.foldl_cons, ih, List.mem_cons, or_assoc, or_left_comm]
      apply or_congr_right
      by_cases hloop : e.1 = e.2
      · rw [if_pos hloop, Marks.get_set_iff, Prod.ext_iff, ← hloop, and_self]
      · rw [if_neg hloop, or_iff_right]
        rintro rfl
        exact hloop rfl

/-- The marked nodes are those with a self-loop. -/
theorem get_selfLoops (v : Fin g.size) : g.selfLoops.get v = true ↔ g.links.Adj v v := by
  rw [selfLoops, ← Array.foldl_toList]
  refine (get_foldl_selfLoops g.links.edges.toList Marks.none v).trans ?_
  simp [Digraph.Adj]

end FileGraph

/-! ## Classes -/

namespace Component

theorem isCycle_iff {c : Component} : c.isCycle = true ↔ 2 ≤ c.members.length :=
  decide_eq_true_iff

/-- The component is a class of cycle-mates among the files of the units. -/
structure IsClass (units : List SourceUnit) (c : Component) : Prop where
  ne_nil : c.members ≠ []
  sorted : c.members.Pairwise (· < ·)
  mem_iff : ∀ name ∈ c.members, ∀ other,
    other ∈ c.members ↔ Known units other ∧ CycleMates units name other
  selfLoop_iff : c.selfLoop = true ↔ ∃ name, c.members = [name] ∧ Includes units name name

namespace IsClass

variable {c d : Component} {name : String}

theorem known (h : c.IsClass units) (hname : name ∈ c.members) : Known units name :=
  ((h.mem_iff name hname name).mp hname).1

/-- A class lists the cycle-mates of any of its files. -/
theorem mem_iff_cycleMates (h : c.IsClass units) (hname : name ∈ c.members) {other : String} :
    other ∈ c.members ↔ CycleMates units name other := by
  rw [h.mem_iff name hname, and_iff_right_iff_imp]
  exact fun hmates => hmates.known (h.known hname)

/-- A class has one file exactly if this file has no other cycle-mates. -/
theorem members_eq_singleton_iff (h : c.IsClass units) (hname : name ∈ c.members) :
    c.members = [name] ↔ ∀ other, CycleMates units name other → other = name := by
  constructor
  · intro hmembers other hmates
    rw [← h.mem_iff_cycleMates hname, hmembers] at hmates
    exact List.mem_singleton.mp hmates
  · intro halone
    apply h.sorted.eq_of_mem_iff (List.pairwise_singleton _ name)
    intro other
    rw [List.mem_singleton]
    constructor
    · exact fun hother => halone other ((h.mem_iff_cycleMates hname).mp hother)
    · rintro rfl
      exact hname

/-- A class is a single file or a cycle. -/
theorem isCycle_iff_ne_singleton (h : c.IsClass units) (hname : name ∈ c.members) :
    c.isCycle = true ↔ c.members ≠ [name] := by
  rw [isCycle_iff]
  match hmembers : c.members with
  | [] => exact absurd hmembers h.ne_nil
  | [single] =>
      rw [hmembers, List.mem_singleton] at hname
      simp [hname]
  | first :: second :: rest => simp

/-- A class is a cycle exactly if its files have other cycle-mates. -/
theorem isCycle_iff_exists_mate (h : c.IsClass units) (hname : name ∈ c.members) :
    c.isCycle = true ↔ ∃ other, other ≠ name ∧ CycleMates units name other := by
  rw [h.isCycle_iff_ne_singleton hname, ne_eq, h.members_eq_singleton_iff hname]
  push Not
  exact exists_congr fun _ => and_comm

/-- Classes with a common file are the same. -/
theorem eq_of_mem (hc : c.IsClass units) (hd : d.IsClass units) (hname : name ∈ c.members)
    (hother : name ∈ d.members) : c = d := by
  have hmembers : c.members = d.members := by
    apply hc.sorted.eq_of_mem_iff hd.sorted
    intro other
    rw [hc.mem_iff name hname, hd.mem_iff name hother]
  have hloops : c.selfLoop = d.selfLoop := by
    rw [Bool.eq_iff_iff, hc.selfLoop_iff, hd.selfLoop_iff, hmembers]
  cases c
  cases d
  exact Component.mk.injEq .. ▸ ⟨hmembers, hloops⟩

end IsClass

/-- Files that depend on each other and include no others are a class. -/
theorem isClass_of_closed {c : Component} (hne : c.members ≠ [])
    (hsorted : c.members.Pairwise (· < ·)) (hknown : ∀ name ∈ c.members, Known units name)
    (hmates : ∀ name ∈ c.members, ∀ other ∈ c.members, DependsOn units name other)
    (hclosed : ∀ unit ∈ units, unit.name ∈ c.members → ∀ name ∈ unit.includes, name ∈ c.members)
    (hloop : c.selfLoop = true ↔ ∃ name, c.members = [name] ∧ Includes units name name) :
    c.IsClass units := by
  refine ⟨hne, hsorted, fun name hname other => ⟨fun hother => ?_, ?_⟩, hloop⟩
  · exact ⟨hknown other hother, hmates name hname other hother, hmates other hother name hname⟩
  · rintro ⟨-, hdepends, -⟩
    induction hdepends with
    | refl => exact hname
    | tail _ hincludes ih =>
        obtain ⟨unit, hunit, rfl, htarget⟩ := hincludes
        exact hclosed unit hunit ih _ htarget

end Component

namespace FileGraph

variable {g : FileGraph}

theorem Represents.selfLoop_iff (h : g.Represents units) {component : Component}
    (hcomponent : component ∈ g.components) : component.selfLoop = true ↔
      ∃ name, component.members = [name] ∧ Includes units name name := by
  obtain ⟨group, hgroup, hmembers, hloop⟩ := exists_group_of_mem_components hcomponent
  rw [hloop, hmembers]
  match group, Digraph.ne_nil_of_mem_stronglyConnected hgroup with
  | [i], _ =>
      have hsingle : Text.sortNames ([i].map g.names.get) = [g.names.get i] :=
        List.mergeSort_singleton _
      rw [hsingle]
      simp only [get_selfLoops, h.adj_iff, List.cons.injEq, and_true, exists_eq_left']
  | i :: j :: rest, _ =>
      simp only [Bool.false_eq_true, false_iff, not_exists, not_and]
      intro name hsingle
      have hlength := (Text.perm_sortNames ((i :: j :: rest).map g.names.get)).length_eq
      rw [hsingle] at hlength
      simp at hlength

theorem Represents.isClass (h : g.Represents units) {component : Component}
    (hcomponent : component ∈ g.components) : component.IsClass units where
  ne_nil := members_ne_nil hcomponent
  sorted := pairwise_members h.nodup hcomponent
  mem_iff _ hname _ := h.mem_members_iff hcomponent hname
  selfLoop_iff := h.selfLoop_iff hcomponent

theorem Represents.exists_component_of_known (h : g.Represents units) {name : String}
    (hname : Known units name) : ∃ component ∈ g.components, name ∈ component.members := by
  rwa [← h.mem_names_iff, ← g.members_components_perm.mem_iff, List.mem_flatMap] at hname

/-- The components of the graph of a list of units are its classes of cycle-mates. -/
theorem Represents.mem_components_iff (h : g.Represents units) {component : Component} :
    component ∈ g.components ↔ component.IsClass units := by
  refine ⟨h.isClass, fun hclass => ?_⟩
  obtain ⟨name, hname⟩ := List.exists_mem_of_ne_nil _ hclass.ne_nil
  obtain ⟨other, hother, hmem⟩ := h.exists_component_of_known (hclass.known hname)
  rw [hclass.eq_of_mem (h.isClass hother) hname hmem]
  exact hother

end FileGraph

end IncludeGraph
