import IncludeGraph.Condensed
import IncludeGraph.Proofs.Construction
import IncludeGraph.Proofs.Digraph.StrongComponents
import IncludeGraph.Proofs.Order

/-!
# Components and their graph

The components of a file graph partition its files into the classes of cycle-mates.
`Condenses` says what a condensed graph has to be for any partition into components;
condensing builds such a graph, and fails only where that graph has a cycle.  For the
classes of cycle-mates it has none.
-/

namespace IncludeGraph

variable {units : List SourceUnit}

/-! ## The components of a graph -/

namespace FileGraph

variable {g : FileGraph}

theorem map_members_components (g : FileGraph) :
    g.components.map (·.members) =
      g.links.stronglyConnected.map fun group => Text.sortNames (group.map g.names.get) := by
  simp [components]

/-- The components list every node of the graph once. -/
theorem members_components_perm (g : FileGraph) :
    (g.components.flatMap (·.members)).Perm g.names.toList := by
  have hnodes : g.links.stronglyConnected.flatten.Perm (List.finRange g.size) := by
    apply (List.perm_ext_iff_of_nodup g.links.nodup_stronglyConnected
      (List.nodup_finRange g.size)).mpr
    intro v
    simp [g.links.mem_stronglyConnected v]
  have hsorted : (g.links.stronglyConnected.flatMap fun group =>
      Text.sortNames (group.map g.names.get)).Perm
        (g.links.stronglyConnected.flatMap fun group => group.map g.names.get) :=
    List.Perm.flatMap_left _ fun group _ => Text.perm_sortNames _
  calc
    g.components.flatMap (·.members) =
        g.links.stronglyConnected.flatMap fun group => Text.sortNames (group.map g.names.get) := by
      rw [List.flatMap_def, map_members_components, ← List.flatMap_def]
    List.Perm _ (g.links.stronglyConnected.flatMap fun group => group.map g.names.get) := hsorted
    _ = g.links.stronglyConnected.flatten.map g.names.get := by
      rw [List.map_flatten, List.flatMap_def]
    List.Perm _ ((List.finRange g.size).map g.names.get) := hnodes.map _
    _ = g.names.toList := (vector_toList_eq_map_get g.names).symm

/-- A component consists of the cycle-mates of any of its files. -/
theorem Represents.mem_members_iff (h : g.Represents units) {component : Component}
    (hcomponent : component ∈ g.components) {name other : String}
    (hname : name ∈ component.members) :
    other ∈ component.members ↔ Known units other ∧ CycleMates units name other := by
  have hmembers : component.members ∈ g.components.map (·.members) :=
    List.mem_map_of_mem hcomponent
  rw [map_members_components] at hmembers
  obtain ⟨group, hgroup, hsorted⟩ := List.mem_map.mp hmembers
  have hmem : ∀ file, file ∈ component.members ↔ ∃ i ∈ group, g.names.get i = file := by
    intro file
    rw [← hsorted, Text.mem_sortNames, List.mem_map]
  obtain ⟨i, hi, rfl⟩ := (hmem name).mp hname
  rw [hmem other, h.known_iff other]
  constructor
  · rintro ⟨j, hj, rfl⟩
    exact ⟨⟨j, rfl⟩, h.mutuallyReachable_iff.mp ((Digraph.mem_component_iff hgroup hi j).mp hj)⟩
  · rintro ⟨⟨j, rfl⟩, hmates⟩
    refine ⟨j, (Digraph.mem_component_iff hgroup hi j).mpr ?_, rfl⟩
    exact h.mutuallyReachable_iff.mpr hmates

end FileGraph

/-! ## Condensing -/

namespace Condensed

open FileTable

/-- The condensed graph of a partition into components. -/
structure Condenses (c : Condensed) (g : FileGraph) (components : List Component) : Prop where
  toList_eq : c.components.toList = components
  componentOf_eq : ∀ file i, c.componentOf file = some i ↔ file ∈ (c.components.get i).members
  adj_iff : ∀ i j, c.links.Adj i j ↔ i ≠ j ∧ ∃ u v, g.links.Adj u v ∧
    c.componentOf (g.names.get u) = some i ∧ c.componentOf (g.names.get v) = some j

def memberGroups {n : Nat} (components : Vector Component n) : List (Fin n × List String) :=
  (List.finRange n).map fun i => (i, (components.get i).members)

theorem flatMap_memberGroups {n : Nat} (components : Vector Component n) :
    (memberGroups components).flatMap Prod.snd = components.toList.flatMap (·.members) := by
  rw [vector_toList_eq_map_get components, memberGroups, List.flatMap_map, List.flatMap_map]

theorem get?_homes {n : Nat} {components : Vector Component n} {home : FileTable (Fin n)}
    (hhomes : homes components = .ok home) (file : String) (i : Fin n) :
    home[file]? = some i ↔ file ∈ (components.get i).members := by
  rw [(holds_of_ofGroups hhomes).get?_eq, mem_entriesOf]
  simp

/-- The nodes and edges of the condensed graph, from the components, the homes of their
members and the homes of the ends of all includes. -/
def ofHomes {n : Nat} (components : Vector Component n) (home : FileTable (Fin n))
    (ends : List (Fin n × Fin n)) : Condensed where
  size := n
  components := components
  links := .ofEdges (firstOccurrences (ends.filter fun e => e.1 != e.2))
  home := home

/-- Once all homes are found, condensing can only fail at a cycle. -/
theorem ofComponents_eq_ite {g : FileGraph} {components : List Component}
    {home : FileTable (Fin components.toArray.size)}
    {ends : List (Fin components.toArray.size × Fin components.toArray.size)}
    (hhomes : homes ⟨components.toArray, rfl⟩ = .ok home) (hsize : home.size = g.size)
    (hends : g.links.edges.toList.mapM (homesOf g home) = .ok ends) :
    ofComponents g components =
      if (ofHomes ⟨components.toArray, rfl⟩ home ends).links.isAcyclic then
        .ok (ofHomes ⟨components.toArray, rfl⟩ home ends)
      else .error (.invariantViolation .condensedCycle) := by
  rw [ofComponents, hhomes, ok_bind, if_neg (not_not.mpr hsize)]
  change g.links.edges.toList.mapM (homesOf g home) >>= _ = _
  rw [hends, ok_bind]
  cases hacyclic : (ofHomes ⟨components.toArray, rfl⟩ home ends).links.isAcyclic with
  | false =>
      simp only [ofHomes] at hacyclic
      simp only [hacyclic]
      rfl
  | true =>
      simp only [ofHomes] at hacyclic
      simp only [hacyclic]
      rfl

theorem homesOf_eq_ok_iff {n : Nat} {g : FileGraph} {home : FileTable (Fin n)}
    {e : Fin g.size × Fin g.size} {i j : Fin n} :
    homesOf g home e = .ok (i, j) ↔
      home[g.names.get e.1]? = some i ∧ home[g.names.get e.2]? = some j := by
  rw [homesOf, homeOf, homeOf]
  cases home[g.names.get e.1]? with
  | none => simp
  | some source =>
      cases home[g.names.get e.2]? with
      | none => simp
      | some target => simp [pure, Except.pure]

/-- The edges of the condensed graph join the homes of the ends of edges that lead from
one component to another. -/
theorem adj_ofHomes {n : Nat} {g : FileGraph} {components : Vector Component n}
    {home : FileTable (Fin n)} {ends : List (Fin n × Fin n)}
    (hall : List.Forall₂ (fun e result => homesOf g home e = .ok result)
      g.links.edges.toList ends) (i j : Fin n) :
    (ofHomes components home ends).links.Adj i j ↔ i ≠ j ∧ ∃ u v, g.links.Adj u v ∧
      home[g.names.get u]? = some i ∧ home[g.names.get v]? = some j := by
  have hlinks : (ofHomes components home ends).links.Adj i j ↔ (i, j) ∈ ends ∧ i ≠ j := by
    change (Digraph.ofEdges (firstOccurrences (ends.filter fun e => e.1 != e.2))).Adj i j ↔ _
    rw [Digraph.adj_ofEdges, mem_firstOccurrences, List.mem_filter, bne_iff_ne]
  rw [hlinks, mem_results_iff hall, and_comm]
  apply and_congr_right
  intro _
  constructor
  · rintro ⟨⟨u, v⟩, hadj, hok⟩
    exact ⟨u, v, Array.mem_toList_iff.mp hadj, homesOf_eq_ok_iff.mp hok⟩
  · rintro ⟨u, v, hadj, hhomes⟩
    exact ⟨(u, v), Array.mem_toList_iff.mpr hadj, homesOf_eq_ok_iff.mpr hhomes⟩

/-- The first end of an include without a component is the error. -/
theorem homesOf_eq_error {n : Nat} {g : FileGraph} {home : FileTable (Fin n)}
    {e : Fin g.size × Fin g.size} {error : AnalysisError}
    (herror : homesOf g home e = .error error) :
    ∃ node : Fin g.size, (node = e.1 ∨ node = e.2) ∧ home[g.names.get node]? = none ∧
      error = .invariantViolation (.unassignedNode node) := by
  rw [homesOf, homeOf, homeOf] at herror
  cases hsource : home[g.names.get e.1]? with
  | none =>
      rw [hsource] at herror
      exact ⟨e.1, .inl rfl, hsource, (Except.error.inj herror).symm⟩
  | some source =>
      cases htarget : home[g.names.get e.2]? with
      | none =>
          rw [hsource, htarget] at herror
          exact ⟨e.2, .inr rfl, htarget, (Except.error.inj herror).symm⟩
      | some target =>
          rw [hsource, htarget] at herror
          cases herror

/-- The checks of a list of components that come before the search for a cycle. -/
structure Covers (components : List Component) (g : FileGraph) : Prop where
  nodup : (components.flatMap (·.members)).Nodup
  length_eq : (components.flatMap (·.members)).length = g.size
  linked : ∀ u v, g.links.Adj u v → g.names.get u ∈ components.flatMap (·.members) ∧
    g.names.get v ∈ components.flatMap (·.members)

/-- How condensing by a list of components ends. -/
inductive Outcome (g : FileGraph) (components : List Component) :
    Except AnalysisError Condensed → Prop
  | shared {file : String} (hrepeat : FirstRepeat [] (components.flatMap (·.members)) file) :
      Outcome g components (.error (.invariantViolation (.sharedFile file)))
  | coverage (hlength : (components.flatMap (·.members)).length ≠ g.size) :
      Outcome g components (.error (.invariantViolation
        (.coverage (components.flatMap (·.members)).length g.size)))
  | unassigned {node : Fin g.size} (hnode : g.names.get node ∉ components.flatMap (·.members))
      (hlinked : ∃ other, g.links.Adj node other ∨ g.links.Adj other node) :
      Outcome g components (.error (.invariantViolation (.unassignedNode node)))
  | cycle {c : Condensed} (hcovers : Covers components g) (hc : c.Condenses g components)
      (hcycle : c.links.HasCycle) :
      Outcome g components (.error (.invariantViolation .condensedCycle))
  | condensed {c : Condensed} (hcovers : Covers components g) (hc : c.Condenses g components)
      (hnodup : c.links.edges.toList.Nodup) (hacyclic : ¬ c.links.HasCycle) :
      Outcome g components (.ok c)

/-- The homes are those of the listed files. -/
theorem holds_homes {components : List Component}
    {home : FileTable (Fin components.toArray.size)}
    (hhomes : homes ⟨components.toArray, rfl⟩ = .ok home) :
    (components.flatMap (·.members)).Nodup ∧
      home.size = (components.flatMap (·.members)).length ∧
      ∀ name, (∃ i, home[name]? = some i) ↔ name ∈ components.flatMap (·.members) := by
  have hholds := holds_of_ofGroups hhomes
  have hfiles : (memberGroups ⟨components.toArray, rfl⟩).flatMap Prod.snd =
      components.flatMap (·.members) := flatMap_memberGroups _
  refine ⟨?_, ?_, fun name => ?_⟩
  · rw [← hfiles, ← map_fst_entriesOf]
    exact hholds.nodup
  · rw [← hfiles]
    exact hholds.size_eq_flatMap
  · rw [← hfiles, ← map_fst_entriesOf]
    exact Option.isSome_iff_exists.symm.trans
      (Std.HashMap.isSome_getElem?_iff_mem.trans (hholds.mem_iff name))

/-- Once every listed file has its home, the ends of the edges and then the cycles decide. -/
theorem outcome_of_homes {g : FileGraph} {components : List Component}
    {home : FileTable (Fin components.toArray.size)}
    (hhomes : homes ⟨components.toArray, rfl⟩ = .ok home) (hsize : home.size = g.size) :
    Outcome g components (ofComponents g components) := by
  obtain ⟨hnodup, hlength, hlisted⟩ := holds_homes hhomes
  rcases mapM_ok_or_error (homesOf g home) g.links.edges.toList with
    ⟨ends, hends, hall⟩ | ⟨before, e, after, error, hsplit, _, hbad, herror⟩
  · have hfound : ∀ e ∈ g.links.edges.toList, ∃ result, homesOf g home e = .ok result :=
      ((List.forall₂_and_left _ _).mp (hall.imp fun _ result h => ⟨⟨result, h⟩, h⟩)).1
    have hcovers : Covers components g := {
      nodup := hnodup
      length_eq := hlength.symm.trans hsize
      linked := by
        intro u v hadj
        obtain ⟨⟨i, j⟩, hresult⟩ := hfound (u, v) (Array.mem_toList_iff.mpr hadj)
        obtain ⟨hi, hj⟩ := homesOf_eq_ok_iff.mp hresult
        exact ⟨(hlisted _).mp ⟨i, hi⟩, (hlisted _).mp ⟨j, hj⟩⟩
    }
    have hc : (ofHomes ⟨components.toArray, rfl⟩ home ends).Condenses g components := {
      toList_eq := rfl
      componentOf_eq := get?_homes hhomes
      adj_iff := adj_ofHomes hall
    }
    have hparallel : (firstOccurrences (ends.filter fun e => e.1 != e.2)).Nodup :=
      nodup_firstOccurrences _
    rw [ofComponents_eq_ite hhomes hsize hends]
    split
    · rename_i hacyclic
      exact .condensed hcovers hc hparallel (Digraph.isAcyclic_iff.mp hacyclic)
    · rename_i hacyclic
      exact .cycle hcovers hc (not_not.mp (mt Digraph.isAcyclic_iff.mpr hacyclic))
  · obtain ⟨node, hend, hnone, rfl⟩ := homesOf_eq_error hbad
    have hadj : g.links.Adj e.1 e.2 := by
      apply Array.mem_toList_iff.mp
      rw [hsplit]
      exact List.mem_append_right before List.mem_cons_self
    rw [ofComponents, hhomes, ok_bind, if_neg (not_not.mpr hsize)]
    change Outcome g components (g.links.edges.toList.mapM (homesOf g home) >>= _)
    rw [herror, error_bind]
    refine .unassigned (mt (hlisted _).mpr ?_) ?_
    · rintro ⟨i, hi⟩
      rw [hnone] at hi
      cases hi
    · rcases hend with rfl | rfl
      · exact ⟨e.2, .inl hadj⟩
      · exact ⟨e.1, .inr hadj⟩

theorem outcome_ofComponents (g : FileGraph) (components : List Component) :
    Outcome g components (ofComponents g components) := by
  rcases ofGroups_holds_or_error .sharedFile (memberGroups ⟨components.toArray, rfl⟩) with
    ⟨home, hhomes, _⟩ | ⟨file, hrepeat, herror⟩
  · change homes ⟨components.toArray, rfl⟩ = .ok home at hhomes
    by_cases hsize : home.size = g.size
    · exact outcome_of_homes hhomes hsize
    · obtain ⟨_, hlength, _⟩ := holds_homes hhomes
      rw [ofComponents, hhomes, ok_bind, if_pos hsize, hlength]
      exact .coverage (hlength ▸ hsize)
  · change homes ⟨components.toArray, rfl⟩ = _ at herror
    rw [flatMap_memberGroups] at hrepeat
    rw [ofComponents, herror, error_bind]
    exact .shared hrepeat

/-- Condensing by a partition of the files gives its condensed graph, unless that graph
has a cycle. -/
theorem ofComponents_of_partition {g : FileGraph} {components : List Component}
    (hnodup : g.names.toList.Nodup)
    (hpartition : (components.flatMap (·.members)).Perm g.names.toList) :
    ∃ c : Condensed, c.Condenses g components ∧ ofComponents g components =
      if c.links.isAcyclic then .ok c else .error (.invariantViolation .condensedCycle) := by
  have hlisted : ∀ v, g.names.get v ∈ components.flatMap (·.members) := fun v =>
    hpartition.mem_iff.mpr (mem_toList_iff_get.mpr ⟨v, rfl⟩)
  generalize hresult : ofComponents g components = result
  have houtcome := hresult ▸ outcome_ofComponents g components
  cases houtcome with
  | shared hrepeat => exact absurd (hpartition.nodup_iff.mpr hnodup) hrepeat.not_nodup
  | coverage hlength =>
      rw [hpartition.length_eq, Vector.length_toList] at hlength
      exact absurd rfl hlength
  | unassigned hnode _ => exact absurd (hlisted _) hnode
  | @cycle c _ hc hcycle =>
      refine ⟨c, hc, ?_⟩
      rw [if_neg (mt Digraph.isAcyclic_iff.mp (not_not.mpr hcycle))]
  | @condensed c _ hc _ hacyclic =>
      refine ⟨c, hc, ?_⟩
      rw [if_pos (Digraph.isAcyclic_iff.mpr hacyclic)]

/-- A condensed graph has no parallel edges. -/
theorem nodup_edges_of_ofComponents {g : FileGraph} {c : Condensed} {components : List Component}
    (hcondensed : ofComponents g components = .ok c) : c.links.edges.toList.Nodup := by
  have houtcome := hcondensed ▸ outcome_ofComponents g components
  cases houtcome with
  | condensed _ _ hnodup _ => exact hnodup

/-! ## Classes of cycle-mates -/

namespace Condenses

variable {g : FileGraph} {c : Condensed} {i j : Fin c.size} {name other : String}

theorem get_mem {components : List Component} (h : c.Condenses g components) (i : Fin c.size) :
    c.components.get i ∈ components := by
  rw [← h.toList_eq, vector_toList_eq_map_get]
  exact List.mem_map_of_mem (List.mem_finRange i)

/-- The files with a component are the members of the components. -/
theorem exists_componentOf_iff {components : List Component} (h : c.Condenses g components) :
    (∃ i, c.componentOf name = some i) ↔ name ∈ components.flatMap (·.members) := by
  rw [← h.toList_eq, vector_toList_eq_map_get, List.flatMap_map, List.mem_flatMap]
  simp only [h.componentOf_eq, List.mem_finRange, true_and]

theorem exists_componentOf_iff_known (h : c.Condenses g g.components)
    (hgraph : g.Represents units) : (∃ i, c.componentOf name = some i) ↔ Known units name := by
  rw [h.exists_componentOf_iff, g.members_components_perm.mem_iff, hgraph.mem_names_iff]

theorem known (h : c.Condenses g g.components) (hgraph : g.Represents units)
    (hname : c.componentOf name = some i) : Known units name :=
  (h.exists_componentOf_iff_known hgraph).mp ⟨i, hname⟩

/-- The component of a file is that of its cycle-mates. -/
theorem componentOf_eq_some_iff (h : c.Condenses g g.components) (hgraph : g.Represents units)
    (hname : c.componentOf name = some i) :
    c.componentOf other = some i ↔ Known units other ∧ CycleMates units name other := by
  rw [h.componentOf_eq other i]
  exact hgraph.mem_members_iff (h.get_mem i) ((h.componentOf_eq name i).mp hname)

/-- Two files share a component exactly if they are cycle-mates. -/
theorem componentOf_eq_iff (h : c.Condenses g g.components) (hgraph : g.Represents units)
    (hname : Known units name) (hother : Known units other) :
    c.componentOf name = c.componentOf other ↔ CycleMates units name other := by
  obtain ⟨i, hi⟩ := (h.exists_componentOf_iff_known hgraph).mpr hname
  rw [hi, eq_comm, h.componentOf_eq_some_iff hgraph hi]
  exact and_iff_right hother

/-- The edges between components are the includes that lead from one to another. -/
theorem adj_iff_includes (h : c.Condenses g g.components) (hgraph : g.Represents units) :
    c.links.Adj i j ↔ i ≠ j ∧ ∃ source target, Includes units source target ∧
      c.componentOf source = some i ∧ c.componentOf target = some j := by
  rw [h.adj_iff]
  apply and_congr_right
  intro _
  constructor
  · rintro ⟨u, v, hadj, hends⟩
    exact ⟨_, _, (hgraph.adj_iff u v).mp hadj, hends⟩
  · rintro ⟨source, target, hincludes, hsource, htarget⟩
    obtain ⟨u, rfl⟩ := (hgraph.known_iff source).mp (h.known hgraph hsource)
    obtain ⟨v, rfl⟩ := (hgraph.known_iff target).mp (h.known hgraph htarget)
    exact ⟨u, v, (hgraph.adj_iff u v).mpr hincludes, hsource, htarget⟩

/-- A path between components is a chain of includes between any of their files. -/
theorem dependsOn_of_reaches (h : c.Condenses g g.components) (hgraph : g.Represents units)
    (hpath : c.links.Reaches i j) (hname : c.componentOf name = some i)
    (hother : c.componentOf other = some j) : DependsOn units name other := by
  induction hpath generalizing name with
  | refl i => exact ((h.componentOf_eq_some_iff hgraph hname).mp hother).2.1
  | step hadj _ ih =>
      obtain ⟨_, source, target, hincludes, hsource, htarget⟩ :=
        (h.adj_iff_includes hgraph).mp hadj
      have hmates := ((h.componentOf_eq_some_iff hgraph hname).mp hsource).2
      exact (hmates.1.tail hincludes).trans (ih htarget hother)

theorem not_hasCycle (h : c.Condenses g g.components) (hgraph : g.Represents units) :
    ¬ c.links.HasCycle := by
  rintro ⟨i, j, hadj, hback⟩
  obtain ⟨hne, source, target, hincludes, hsource, htarget⟩ :=
    (h.adj_iff_includes hgraph).mp hadj
  have hmates : CycleMates units source target :=
    ⟨.single hincludes, h.dependsOn_of_reaches hgraph hback htarget hsource⟩
  have hshared := (h.componentOf_eq_some_iff hgraph hsource).mpr
    ⟨h.known hgraph htarget, hmates⟩
  rw [htarget] at hshared
  exact hne (Option.some.inj hshared).symm

end Condenses

/-- Condensing by the classes of cycle-mates succeeds. -/
theorem ofComponents_components {g : FileGraph} (hgraph : g.Represents units) :
    ∃ c, ofComponents g g.components = .ok c ∧ c.Condenses g g.components := by
  obtain ⟨c, hcondenses, hresult⟩ :=
    ofComponents_of_partition hgraph.nodup g.members_components_perm
  refine ⟨c, ?_, hcondenses⟩
  rw [hresult, if_pos (Digraph.isAcyclic_iff.mpr (hcondenses.not_hasCycle hgraph))]

end Condensed

end IncludeGraph
