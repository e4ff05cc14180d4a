import Mathlib.Data.ENat.Lattice
import Mathlib.Data.Set.Card
import Mathlib.Order.CompletePartialOrder
import Mathlib.SetTheory.Cardinal.NatCard
import IncludeGraph.Proofs.Analysis
import IncludeGraph.Proofs.Components
import IncludeGraph.Proofs.Digraph.WeakComponents

/-!
# What the statistics count

Every counter of a report is the number of some names, pairs of names or classes of
cycle-mates, and the greatest degrees are bounds over all names.  Numbers of nodes, the order
of edges and the order in which classes are found have no part in it.
-/

namespace IncludeGraph

open IncludeGraph.Digraph

variable {units : List SourceUnit}

/-! ## Counting lists and vectors -/

section Counting

variable {α : Type} {n : Nat}

/-- A list of the values with a property, each of them once, is as long as they are many. -/
theorem encard_setOf_eq_length {p : α → Prop} {values : List α} (hnodup : values.Nodup)
    (hmem : ∀ value, value ∈ values ↔ p value) : {value | p value}.encard = values.length := by
  classical
  have hset : {value | p value} = ↑values.toFinset := by
    ext value
    simp [hmem]
  rw [hset, Set.encard_coe_eq_coe_finsetCard, List.toFinset_card_of_nodup hnodup]

theorem vector_countP_eq (values : Vector α n) (p : α → Bool) :
    values.countP p = (List.finRange n).countP fun v => p (values.get v) := by
  rw [← Vector.countP_toList, vector_toList_eq_map_get, List.countP_map]
  rfl

theorem natCast_max (m n : Nat) : ((max m n : Nat) : ℕ∞) = max (m : ℕ∞) n :=
  Nat.mono_cast.map_max

theorem natCast_list_foldl_max (values : List Nat) (start : Nat) :
    ((values.foldl max start : Nat) : ℕ∞) = (start : ℕ∞) ⊔ ⨆ value ∈ values, (value : ℕ∞) := by
  induction values generalizing start with
  | nil => simp
  | cons value values ih =>
      rw [List.foldl_cons, ih, natCast_max]
      simp only [List.mem_cons, iSup_or, iSup_sup_eq, iSup_iSup_eq_left, sup_assoc]

/-- The greatest entry of a vector is the least bound of its entries. -/
theorem natCast_foldl_max (values : Vector Nat n) :
    ((values.foldl max 0 : Nat) : ℕ∞) = ⨆ v, (values.get v : ℕ∞) := by
  rw [← Vector.foldl_toList, natCast_list_foldl_max, Nat.cast_zero,
    max_eq_right zero_le]
  simp only [mem_toList_iff_get, iSup_exists]
  rw [iSup_comm]
  simp only [iSup_iSup_eq_right]

end Counting

/-! ## What is counted -/

/-- The files that includes join to a file, in whatever direction. -/
def part (units : List SourceUnit) (name : String) : Set String :=
  {other | Relation.EqvGen (Includes units) name other}

theorem part_eq_of_joined {name other : String}
    (hjoined : Relation.EqvGen (Includes units) name other) :
    part units name = part units other := by
  ext
  exact ⟨.trans _ _ _ (.symm _ _ hjoined), .trans _ _ _ hjoined⟩

/-- Where every include names a file, joined names are both names of files or neither is. -/
theorem known_iff_of_joined
    (hclosed : ∀ source target, Includes units source target → Known units target)
    {name other : String} (hjoined : Relation.EqvGen (Includes units) name other) :
    Known units name ↔ Known units other := by
  induction hjoined with
  | rel _ _ hincludes => exact iff_of_true hincludes.known_source (hclosed _ _ hincludes)
  | refl _ => exact Iff.rfl
  | symm _ _ _ ih => exact ih.symm
  | trans _ _ _ _ _ hleft hright => exact hleft.trans hright

/-- The file includes nothing, and no file includes it. -/
def Isolated (units : List SourceUnit) (name : String) : Prop :=
  Known units name ∧ ∀ other, ¬ Includes units name other ∧ ¬ Includes units other name

/-- An include leads from one class of cycle-mates to another. -/
structure ClassEdge (units : List SourceUnit) (c d : Component) : Prop where
  source_isClass : c.IsClass units
  target_isClass : d.IsClass units
  ne : c ≠ d
  includes : ∃ source ∈ c.members, ∃ target ∈ d.members, Includes units source target

/-- The counters say how many files, includes and classes the units have. -/
structure Stats.Counts (stats : Stats) (units : List SourceUnit) : Prop where
  fileCount_eq : (stats.fileCount : ℕ∞) = {name | Known units name}.encard
  edgeCount_eq : (stats.edgeCount : ℕ∞) =
    {pair : String × String | Includes units pair.1 pair.2}.encard
  componentCount_eq : (stats.componentCount : ℕ∞) =
    {component : Component | component.IsClass units}.encard
  cycleCount_eq : (stats.cycleCount : ℕ∞) =
    {component : Component | component.IsClass units ∧ component.isCycle = true}.encard
  selfIncludeCount_eq : (stats.selfIncludeCount : ℕ∞) = {name | Includes units name name}.encard
  weaklyConnectedComponentCount_eq : (stats.weaklyConnectedComponentCount : ℕ∞) =
    {names | ∃ name, Known units name ∧ part units name = names}.encard
  isolatedFileCount_eq : (stats.isolatedFileCount : ℕ∞) = {name | Isolated units name}.encard
  maxInDegree_eq : (stats.maxInDegree : ℕ∞) = ⨆ name, {source | Includes units source name}.encard
  maxOutDegree_eq : (stats.maxOutDegree : ℕ∞) =
    ⨆ name, {target | Includes units name target}.encard
  condensedEdgeCount_eq : (stats.condensedEdgeCount : ℕ∞) =
    {pair : Component × Component | ClassEdge units pair.1 pair.2}.encard

/-! ## Neighbours without parallel edges -/

namespace Digraph

variable {n : Nat} {g : Digraph n}

theorem nodup_successors (hedges : g.edges.toList.Nodup) (v : Fin n) :
    (g.successors v).Nodup := by
  rw [List.nodup_iff_count_le_one]
  intro w
  rw [count_successors]
  exact List.nodup_iff_count_le_one.mp hedges (v, w)

theorem nodup_predecessors (hedges : g.edges.toList.Nodup) (v : Fin n) :
    (g.predecessors v).Nodup := by
  rw [List.nodup_iff_count_le_one]
  intro w
  rw [count_predecessors]
  exact List.nodup_iff_count_le_one.mp hedges (w, v)

end Digraph

/-! ## Files, includes and degrees -/

namespace FileGraph.Represents

variable {g : FileGraph}

/-- The files with a property are as many as a list of their nodes is long. -/
theorem encard_nodes (h : g.Represents units) {property : String → Prop}
    {nodes : List (Fin g.size)} (hnodup : nodes.Nodup)
    (hmem : ∀ v, v ∈ nodes ↔ property (g.names.get v))
    (hknown : ∀ name, property name → Known units name) :
    {name | property name}.encard = nodes.length := by
  rw [← List.length_map g.names.get]
  apply encard_setOf_eq_length (hnodup.map h.injective)
  intro name
  rw [List.mem_map]
  constructor
  · rintro ⟨v, hv, rfl⟩
    exact (hmem v).mp hv
  · intro hname
    obtain ⟨v, rfl⟩ := (h.known_iff name).mp (hknown name hname)
    exact ⟨v, (hmem v).mpr hname, rfl⟩

theorem encard_known (h : g.Represents units) : {name | Known units name}.encard = g.size := by
  rw [h.encard_nodes (List.nodup_finRange g.size) (fun v => ?_) fun _ => id, List.length_finRange]
  exact iff_of_true (List.mem_finRange v) ((h.known_iff _).mpr ⟨v, rfl⟩)

/-- A vector with one entry for each node counts the files whose entry is right. -/
theorem encard_entries (h : g.Represents units) {α : Type} (values : Vector α g.size)
    {property : String → Prop} (p : α → Bool)
    (hp : ∀ v, p (values.get v) = true ↔ property (g.names.get v))
    (hknown : ∀ name, property name → Known units name) :
    {name | property name}.encard = values.countP p := by
  rw [vector_countP_eq, List.countP_eq_length_filter]
  refine h.encard_nodes ((List.nodup_finRange g.size).filter _) (fun v => ?_) hknown
  rw [List.mem_filter, hp, and_iff_right (List.mem_finRange v)]

theorem encard_includes (h : g.Represents units) (hedges : g.links.edges.toList.Nodup) :
    {pair : String × String | Includes units pair.1 pair.2}.encard = g.links.edgeCount := by
  have hlength : (FileGraph.edgeNames g.names g.links).length = g.links.edgeCount := by
    rw [FileGraph.edgeNames, List.length_map, Array.length_toList, Digraph.edgeCount]
  rw [← hlength]
  exact encard_setOf_eq_length (hedges.map (h.injective.prodMap h.injective))
    fun pair => h.mem_edgeNames

/-- The greatest entry of a vector that counts the files in a relation to every file. -/
theorem iSup_encard_eq (h : g.Represents units) (relation : String → String → Prop)
    {values : Vector Nat g.size}
    (hvalues : ∀ v, {other | relation (g.names.get v) other}.encard = values.get v)
    (hknown : ∀ name other, relation name other → Known units name) :
    ⨆ name, {other | relation name other}.encard = (values.foldl max 0 : Nat) := by
  rw [natCast_foldl_max]
  apply le_antisymm
  · refine iSup_le fun name => ?_
    by_cases hname : Known units name
    · obtain ⟨v, rfl⟩ := (h.known_iff name).mp hname
      exact (hvalues v).le.trans (le_iSup (fun v => (values.get v : ℕ∞)) v)
    · have hempty : {other | relation name other} = ∅ :=
        Set.eq_empty_of_forall_notMem fun other hrelation => hname (hknown name other hrelation)
      rw [hempty, Set.encard_empty]
      exact zero_le
  · refine iSup_le fun v => ?_
    exact (hvalues v).ge.trans
      (le_iSup (fun name => {other | relation name other}.encard) (g.names.get v))

theorem iSup_encard_targets (h : g.Represents units) (hedges : g.links.edges.toList.Nodup) :
    ⨆ name, {target | Includes units name target}.encard =
      ((g.links.outgoing.map List.length).foldl max 0 : Nat) := by
  refine h.iSup_encard_eq (Includes units) (fun v => ?_)
    fun _ _ hincludes => hincludes.known_source
  rw [vector_get_map, get_outgoing]
  refine h.encard_nodes (nodup_successors hedges v) (fun w => ?_) (h.known _)
  rw [mem_successors, h.adj_iff]

theorem iSup_encard_sources (h : g.Represents units) (hedges : g.links.edges.toList.Nodup) :
    ⨆ name, {source | Includes units source name}.encard =
      ((g.links.incoming.map List.length).foldl max 0 : Nat) := by
  refine h.iSup_encard_eq (fun name source => Includes units source name) (fun v => ?_)
    fun name source => h.known source name
  rw [vector_get_map, get_incoming]
  refine h.encard_nodes (nodup_predecessors hedges v) (fun w => ?_) fun _ hincludes => ?_
  · rw [mem_predecessors, h.adj_iff]
  · exact hincludes.known_source

/-- Nodes without neighbours are those of isolated files. -/
theorem encard_isolated (h : g.Represents units) : {name | Isolated units name}.encard =
    ((g.links.outgoing.map List.length).zipWith (· + ·)
      (g.links.incoming.map List.length)).countP (· == 0) := by
  refine h.encard_entries _ (· == 0) (fun v => ?_) fun _ hname => hname.1
  rw [vector_get_zipWith, vector_get_map, vector_get_map, beq_iff_eq, Nat.add_eq_zero_iff,
    List.length_eq_zero_iff, List.length_eq_zero_iff, get_outgoing, get_incoming,
    List.eq_nil_iff_forall_not_mem, List.eq_nil_iff_forall_not_mem]
  simp only [mem_successors, mem_predecessors, h.adj_iff]
  constructor
  · rintro ⟨htargets, hsources⟩
    refine ⟨(h.known_iff _).mpr ⟨v, rfl⟩, fun other => ⟨fun hincludes => ?_, fun hincludes => ?_⟩⟩
    · obtain ⟨w, rfl⟩ := (h.known_iff other).mp (h.known _ other hincludes)
      exact htargets w hincludes
    · obtain ⟨w, rfl⟩ := (h.known_iff other).mp hincludes.known_source
      exact hsources w hincludes
  · rintro ⟨_, hnone⟩
    exact ⟨fun w => (hnone _).1, fun w => (hnone _).2⟩

/-! ## Joined files -/

theorem joined_iff (h : g.Represents units) {u v : Fin g.size} :
    g.links.Joined u v ↔
      Relation.EqvGen (Includes units) (g.names.get u) (g.names.get v) := by
  constructor
  · intro hjoined
    induction hjoined with
    | rel _ _ hadj => exact .rel _ _ ((h.adj_iff _ _).mp hadj)
    | refl _ => exact .refl _
    | symm _ _ _ ih => exact .symm _ _ ih
    | trans _ _ _ _ _ hleft hright => exact .trans _ _ _ hleft hright
  · intro hjoined
    generalize hu : g.names.get u = name at hjoined
    generalize hv : g.names.get v = other at hjoined
    induction hjoined generalizing u v with
    | rel _ _ hincludes =>
        subst hu hv
        exact .rel _ _ ((h.adj_iff u v).mpr hincludes)
    | refl _ =>
        rw [h.injective (hu.trans hv.symm)]
        exact .refl v
    | symm _ _ _ ih => exact .symm _ _ (ih hv hu)
    | trans _ middle _ hfirst _ hleft hright =>
        obtain ⟨w, hw⟩ := (h.known_iff middle).mp
          ((known_iff_of_joined h.known hfirst).mp ((h.known_iff _).mpr ⟨u, hu⟩))
        exact .trans _ w _ (hleft hu hw) (hright hw hv)

theorem part_eq_iff (h : g.Represents units) {u v : Fin g.size} :
    part units (g.names.get u) = part units (g.names.get v) ↔ g.links.Joined u v := by
  rw [h.joined_iff]
  constructor
  · intro heq
    have hself : g.names.get v ∈ part units (g.names.get v) := .refl _
    rwa [← heq] at hself
  · exact part_eq_of_joined

/-- The part of the files of a class of joined nodes. -/
def partOf (h : g.Represents units) : Quot g.links.Adj → Set String :=
  Quot.lift (fun v => part units (g.names.get v)) fun _ _ hadj => h.part_eq_iff.mpr (.rel _ _ hadj)

theorem partOf_injective (h : g.Represents units) : Function.Injective h.partOf := by
  rintro ⟨u⟩ ⟨v⟩ heq
  exact Quot.eqvGen_sound (h.part_eq_iff.mp heq)

/-- The weakly connected components of the graph are the parts of the files. -/
theorem encard_parts (h : g.Represents units) :
    {names | ∃ name, Known units name ∧ part units name = names}.encard =
      g.links.weaklyConnected.length := by
  have hrange : {names | ∃ name, Known units name ∧ part units name = names} =
      Set.range h.partOf := by
    ext names
    constructor
    · rintro ⟨name, hname, rfl⟩
      obtain ⟨v, rfl⟩ := (h.known_iff name).mp hname
      exact ⟨Quot.mk _ v, rfl⟩
    · rintro ⟨⟨v⟩, rfl⟩
      exact ⟨g.names.get v, (h.known_iff _).mpr ⟨v, rfl⟩, rfl⟩
  rw [hrange, ← Set.image_univ, h.partOf_injective.injOn.encard_image, Set.encard_univ,
    ENat.card_eq_coe_natCard, length_weaklyConnected]

end FileGraph.Represents

/-! ## Classes -/

namespace Condensed.Condenses

variable {g : FileGraph} {c : Condensed}

theorem nodup_components (h : c.Condenses g g.components) (hgraph : g.Represents units) :
    c.components.toList.Nodup :=
  h.toList_eq ▸ FileGraph.nodup_components hgraph.nodup

theorem mem_components_iff (h : c.Condenses g g.components) (hgraph : g.Represents units)
    {component : Component} : component ∈ c.components.toList ↔ component.IsClass units := by
  rw [h.toList_eq, hgraph.mem_components_iff]

theorem encard_classes (h : c.Condenses g g.components) (hgraph : g.Represents units) :
    {component : Component | component.IsClass units}.encard = c.size := by
  have hsize : c.components.toList.length = c.size := Vector.length_toList
  rw [← hsize]
  exact encard_setOf_eq_length (h.nodup_components hgraph) fun _ => h.mem_components_iff hgraph

theorem encard_cycles (h : c.Condenses g g.components) (hgraph : g.Represents units) :
    {component : Component | component.IsClass units ∧ component.isCycle = true}.encard =
      c.cycleCount := by
  rw [Condensed.cycleCount, ← Vector.countP_toList, List.countP_eq_length_filter]
  apply encard_setOf_eq_length ((h.nodup_components hgraph).filter _)
  intro component
  rw [List.mem_filter, h.mem_components_iff hgraph]

/-- The edges of the condensed graph are the edges between classes. -/
theorem adj_iff_classEdge (h : c.Condenses g g.components) (hgraph : g.Represents units)
    {i j : Fin c.size} :
    c.links.Adj i j ↔ ClassEdge units (c.components.get i) (c.components.get j) := by
  have hclass : ∀ i, (c.components.get i).IsClass units := fun i =>
    hgraph.isClass (h.get_mem i)
  have hne : c.components.get i ≠ c.components.get j ↔ i ≠ j :=
    (get_injective (h.nodup_components hgraph)).ne_iff
  rw [h.adj_iff_includes hgraph, ← hne]
  simp only [h.componentOf_eq]
  constructor
  · rintro ⟨hapart, source, target, hincludes, hsource, htarget⟩
    exact ⟨hclass i, hclass j, hapart, source, hsource, target, htarget, hincludes⟩
  · rintro ⟨_, _, hapart, source, hsource, target, htarget, hincludes⟩
    exact ⟨hapart, source, target, hincludes, hsource, htarget⟩

theorem encard_classEdges (h : c.Condenses g g.components) (hgraph : g.Represents units)
    (hedges : c.links.edges.toList.Nodup) :
    {pair : Component × Component | ClassEdge units pair.1 pair.2}.encard =
      c.links.edgeCount := by
  have hinjective := get_injective (h.nodup_components hgraph)
  rw [Digraph.edgeCount, ← Array.length_toList,
    ← List.length_map (Prod.map c.components.get c.components.get)]
  apply encard_setOf_eq_length (hedges.map (hinjective.prodMap hinjective))
  rintro ⟨source, target⟩
  rw [List.mem_map]
  constructor
  · rintro ⟨⟨i, j⟩, hadj, heq⟩
    obtain ⟨rfl, rfl⟩ := Prod.mk.inj heq
    exact (h.adj_iff_classEdge hgraph).mp (Array.mem_toList_iff.mp hadj)
  · intro hedge
    obtain ⟨i, rfl⟩ := mem_toList_iff_get.mp
      ((h.mem_components_iff hgraph).mpr hedge.source_isClass)
    obtain ⟨j, rfl⟩ := mem_toList_iff_get.mp
      ((h.mem_components_iff hgraph).mpr hedge.target_isClass)
    exact ⟨(i, j), Array.mem_toList_iff.mpr ((h.adj_iff_classEdge hgraph).mpr hedge), rfl⟩

end Condensed.Condenses

/-- The statistics of a report count the files, includes and classes of the units. -/
theorem Gathered.counts {policy : SelfLoopPolicy} {report : Report} {g : FileGraph}
    {c : Condensed} {count : Nat} (h : Gathered units policy report g c count) :
    report.stats.Counts units := by
  have hgraph := h.represents
  have hedges := FileGraph.nodup_edges_of_build h.build_eq
  obtain rfl := h.report_eq
  exact {
    fileCount_eq := hgraph.encard_known.symm
    edgeCount_eq := (hgraph.encard_includes hedges).symm
    componentCount_eq := (h.condenses.encard_classes hgraph).symm
    cycleCount_eq := (h.condenses.encard_cycles hgraph).symm
    selfIncludeCount_eq := by
      refine (hgraph.encard_entries g.selfLoops id (fun v => ?_) fun _ hloop => ?_).symm
      · rw [id_eq, FileGraph.get_selfLoops, hgraph.adj_iff]
      · exact hloop.known_source
    weaklyConnectedComponentCount_eq := hgraph.encard_parts.symm
    isolatedFileCount_eq := hgraph.encard_isolated.symm
    maxInDegree_eq := (hgraph.iSup_encard_sources hedges).symm
    maxOutDegree_eq := (hgraph.iSup_encard_targets hedges).symm
    condensedEdgeCount_eq := (h.condenses.encard_classEdges hgraph
      (Condensed.nodup_edges_of_ofComponents h.condensed_eq)).symm
  }

end IncludeGraph
