import IncludeGraph.Proofs.Invariance
import IncludeGraph.Proofs.Verification

/-!
# Parallel edges

A graph that is built has no parallel edges, but more edges can be added to it.  Copies of edges
that it has change the order in which searches meet the nodes, the numbers of the components
and the counts that staging starts with.  They leave the adjacent nodes as they are, and so all
that is read off the graph: components, cycles, lists of neighbours, the condensed graph up to
a renumbering, its plan, and what the check of a plan finds.
-/

namespace IncludeGraph

open IncludeGraph.Digraph

variable {units : List SourceUnit} {g : FileGraph}

/-! ## Adding edges -/

namespace Digraph

variable {n : Nat} {g : Digraph n}

def addEdges (g : Digraph n) (copies : List (Fin n × Fin n)) : Digraph n :=
  copies.foldl (fun g e => g.addEdge e.1 e.2) g

theorem edges_addEdges (g : Digraph n) (copies : List (Fin n × Fin n)) :
    (g.addEdges copies).edges.toList = g.edges.toList ++ copies := by
  induction copies generalizing g with
  | nil => exact (List.append_nil _).symm
  | cons e copies ih =>
      rw [addEdges, List.foldl_cons]
      refine (ih (g.addEdge e.1 e.2)).trans ?_
      rw [addEdge, Array.toList_push, List.append_assoc, List.singleton_append]

/-- Copies of edges make no other nodes adjacent. -/
theorem adj_addEdges {copies : List (Fin n × Fin n)} (hcopies : ∀ e ∈ copies, g.Adj e.1 e.2)
    (u v : Fin n) : (g.addEdges copies).Adj u v ↔ g.Adj u v := by
  rw [Adj, ← Array.mem_toList_iff, edges_addEdges, List.mem_append, Array.mem_toList_iff]
  exact or_iff_left_of_imp (hcopies (u, v))

end Digraph

def FileGraph.addEdges (g : FileGraph) (copies : List (Fin g.size × Fin g.size)) : FileGraph :=
  { g with links := g.links.addEdges copies }

def Condensed.addEdges (c : Condensed) (copies : List (Fin c.size × Fin c.size)) : Condensed :=
  { c with links := c.links.addEdges copies }

/-- Edges between nodes of the graph can be added one after the other. -/
theorem FileGraph.foldlM_addEdge? (g : FileGraph) (copies : List (Fin g.size × Fin g.size)) :
    copies.foldlM (fun g e => g.addEdge? e.1 e.2) g = some (g.addEdges copies) := by
  obtain ⟨n, names, links, index, fingerprint⟩ := g
  change List (Fin n × Fin n) at copies
  induction copies generalizing links with
  | nil => rfl
  | cons e copies ih =>
      rw [List.foldlM_cons, addEdge?, dif_pos ⟨e.1.isLt, e.2.isLt⟩]
      exact ih (links.addEdge e.1 e.2)

theorem Condensed.foldlM_addEdge? (c : Condensed) (copies : List (Fin c.size × Fin c.size)) :
    copies.foldlM (fun c e => c.addEdge? e.1 e.2) c = some (c.addEdges copies) := by
  obtain ⟨n, components, links, home⟩ := c
  change List (Fin n × Fin n) at copies
  induction copies generalizing links with
  | nil => rfl
  | cons e copies ih =>
      rw [List.foldlM_cons, addEdge?, dif_pos ⟨e.1.isLt, e.2.isLt⟩]
      exact ih (links.addEdge e.1 e.2)

/-! ## Condensed graphs -/

/-- Staging takes parallel edges between components for one. -/
theorem Plan.ofCondensed_addEdges (c : Condensed) {copies : List (Fin c.size × Fin c.size)}
    (hcopies : ∀ e ∈ copies, c.links.Adj e.1 e.2) :
    ofCondensed (c.addEdges copies) = ofCondensed c := by
  have hsame : RenumbersAdj (.refl _) c.links (c.addEdges copies).links := ⟨adj_addEdges hcopies⟩
  exact ofCondensed_eq_of_renumbers hsame fun _ => rfl

/-- The members of the components at the ends of every edge. -/
def Condensed.edgeMembers (c : Condensed) : List (List String × List String) :=
  c.links.edges.toList.map fun e => ((c.components.get e.1).members, (c.components.get e.2).members)

theorem Condensed.edgeMembers_perm {c c' : Condensed} {τ : Fin c.size ≃ Fin c'.size}
    (hτ : Renumbers τ c.links c'.links)
    (hget : ∀ i, (c'.components.get (τ i)).members = (c.components.get i).members) :
    c.edgeMembers.Perm c'.edgeMembers := by
  refine List.Perm.trans (List.Perm.of_eq ?_) (hτ.edges_perm.map _)
  rw [edgeMembers, List.map_map]
  simp only [Function.comp_def, hget]

/-! ## File graphs -/

namespace FileGraph

/-- Copies of edges are includes of the same units. -/
theorem Represents.addEdges (h : g.Represents units) {copies : List (Fin g.size × Fin g.size)}
    (hcopies : ∀ e ∈ copies, g.links.Adj e.1 e.2) : (g.addEdges copies).Represents units where
  nodup := h.nodup
  known_iff := h.known_iff
  node?_eq := h.node?_eq
  adj_iff i j := (adj_addEdges hcopies i j).trans (h.adj_iff i j)
  known := h.known

theorem edgeNames_addEdges {n : Nat} (names : Vector String n) (links : Digraph n)
    (copies : List (Fin n × Fin n)) : edgeNames names (links.addEdges copies) =
      edgeNames names links ++ copies.map fun e => (names.get e.1, names.get e.2) := by
  rw [edgeNames, edges_addEdges, List.map_append, edgeNames]

end FileGraph

/-! ## The verdict on a plan -/

namespace Plan

variable {p : Plan} {g' : FileGraph} {c c' : Condensed}

/-- The second graph has the names of the first one and its edges, and perhaps copies of them
after those.  Both condensed graphs agree on which ends of edges share a component. -/
structure ChecksAlike (g : FileGraph) (c : Condensed) (g' : FileGraph) (c' : Condensed) :
    Prop where
  names_eq : g'.names.toList = g.names.toList
  exists_copies : ∃ copies ⊆ FileGraph.edgeNames g.names g.links,
    FileGraph.edgeNames g'.names g'.links = FileGraph.edgeNames g.names g.links ++ copies
  shared_iff : ∀ pair ∈ FileGraph.edgeNames g.names g.links,
    (c.componentOf pair.1 = c.componentOf pair.2 ↔ c'.componentOf pair.1 = c'.componentOf pair.2)

namespace ChecksAlike

theorem size_eq (h : ChecksAlike g c g' c') : g'.size = g.size := by
  simpa using congrArg List.length h.names_eq

theorem listsFiles (h : ChecksAlike g c g' c') (hfiles : p.ListsFiles g) : p.ListsFiles g' where
  nodup := hfiles.nodup
  listed := h.names_eq ▸ hfiles.listed
  length_eq := hfiles.length_eq.trans h.size_eq.symm

theorem orders_iff (h : ChecksAlike g c g' c') {pair : String × String}
    (hpair : pair ∈ FileGraph.edgeNames g.names g.links) :
    p.Orders c pair.1 pair.2 ↔ p.Orders c' pair.1 pair.2 := by
  simp only [Orders, h.shared_iff pair hpair]

/-- Copies keep the rules that the edges keep. -/
theorem orders (h : ChecksAlike g c g' c')
    (hordered : ∀ pair ∈ FileGraph.edgeNames g.names g.links, p.Orders c pair.1 pair.2) :
    ∀ pair ∈ FileGraph.edgeNames g'.names g'.links, p.Orders c' pair.1 pair.2 := by
  obtain ⟨copies, hsubset, hedges⟩ := h.exists_copies
  intro pair hpair
  rw [hedges, List.mem_append, or_iff_left_of_imp (@hsubset pair)] at hpair
  exact (h.orders_iff hpair).mp (hordered pair hpair)

/-- Copies come after the first edge that breaks a rule. -/
theorem firstExcept (h : ChecksAlike g c g' c') {pair : String × String}
    (hfirst : FirstExcept (fun pair => p.Orders c pair.1 pair.2)
      (FileGraph.edgeNames g.names g.links) pair) :
    FirstExcept (fun pair => p.Orders c' pair.1 pair.2)
      (FileGraph.edgeNames g'.names g'.links) pair := by
  obtain ⟨copies, _, hedges⟩ := h.exists_copies
  rw [hedges]
  exact (hfirst.of_iff fun pair hpair => h.orders_iff hpair).append_right copies

theorem firstBroken (h : ChecksAlike g c g' c') {violation : Violation}
    (hbroken : p.FirstBroken g c violation) : p.FirstBroken g' c' violation := by
  cases hbroken with
  | repeated hrepeat => exact .repeated hrepeat
  | missing hnodup hfirst => exact .missing hnodup (h.names_eq ▸ hfirst)
  | foreign hnodup hlisted hlength =>
      exact .foreign hnodup (h.names_eq ▸ hlisted) (h.size_eq ▸ hlength)
  | split hfiles hfirst hshared =>
      exact .split (h.listsFiles hfiles) (h.firstExcept hfirst)
        ((h.shared_iff _ hfirst.mem).mp hshared)
  | late hfiles hfirst hapart hsource htarget =>
      exact .late (h.listsFiles hfiles) (h.firstExcept hfirst)
        (mt (h.shared_iff _ hfirst.mem).mpr hapart) hsource htarget

theorem verify_eq (h : ChecksAlike g c g' c') (p : Plan) : p.verify g c = p.verify g' c' := by
  rcases keeps_or_firstBroken p g c with ⟨hfiles, hordered⟩ | ⟨violation, hbroken⟩
  · rw [verify_of_orders hfiles hordered,
      verify_of_orders (h.listsFiles hfiles) (h.orders hordered)]
  · rw [hbroken.verify_eq, (h.firstBroken hbroken).verify_eq]

end ChecksAlike

theorem checksAlike_addEdges {copies : List (Fin g.size × Fin g.size)}
    (hcopies : ∀ e ∈ copies, g.links.Adj e.1 e.2)
    (hshared : ∀ pair ∈ FileGraph.edgeNames g.names g.links,
      (c.componentOf pair.1 = c.componentOf pair.2 ↔
        c'.componentOf pair.1 = c'.componentOf pair.2)) :
    ChecksAlike g c (g.addEdges copies) c' where
  names_eq := rfl
  exists_copies := by
    refine ⟨_, ?_, FileGraph.edgeNames_addEdges g.names g.links copies⟩
    intro pair hpair
    obtain ⟨e, he, rfl⟩ := List.mem_map.mp hpair
    exact List.mem_map.mpr ⟨e, Array.mem_toList_iff.mpr (hcopies e he), rfl⟩
  shared_iff := hshared

end Plan

/-! ## Graphs with and without copies -/

/-- Both graphs have the same components with the same marks, cycles and lists of neighbours.
Their condensed graphs have the same edges and the same plan, and checks find the same in any
plan. -/
structure FileGraph.Matches (g g' : FileGraph) : Prop where
  components_perm : g.components.Perm g'.components
  findCycles_eq : ∀ policy, findCycles g.components policy = findCycles g'.components policy
  dependencies_eq : ∀ name, g.dependencies name = g'.dependencies name
  dependents_eq : ∀ name, g.dependents name = g'.dependents name
  verify_eq : ∀ (p : Plan) (c : Condensed), p.verify g c = p.verify g' c
  exists_condensed : ∃ c c', Condensed.ofComponents g g.components = .ok c ∧
    Condensed.ofComponents g' g'.components = .ok c' ∧ c.edgeMembers.Perm c'.edgeMembers ∧
    (∃ p, Plan.ofCondensed c = .ok p ∧ Plan.ofCondensed c' = .ok p) ∧
    ∀ p : Plan, p.verify g c = p.verify g' c'

/-- Copies of edges leave the condensed graph as it is but for the numbers of the components. -/
theorem FileGraph.Represents.exists_condensed_addEdges (h : g.Represents units)
    {copies : List (Fin g.size × Fin g.size)} (hcopies : ∀ e ∈ copies, g.links.Adj e.1 e.2) :
    ∃ c c', Condensed.ofComponents g g.components = .ok c ∧
      Condensed.ofComponents (g.addEdges copies) (g.addEdges copies).components = .ok c' ∧
      c.edgeMembers.Perm c'.edgeMembers ∧
      (∃ p, Plan.ofCondensed c = .ok p ∧ Plan.ofCondensed c' = .ok p) ∧
      ∀ p : Plan, p.verify g c = p.verify (g.addEdges copies) c' := by
  have h' := h.addEdges hcopies
  obtain ⟨c, hcondensed, hc⟩ := Condensed.ofComponents_components h
  obtain ⟨c', hcondensed', hc'⟩ := Condensed.ofComponents_components h'
  have hsame : SameOtherIncludes units units := ⟨fun _ => Iff.rfl, fun _ _ _ => Iff.rfl⟩
  obtain ⟨τ, hget, hτ⟩ := hsame.exists_renumbers_of_condenses h h' hc hc'
    (Condensed.nodup_edges_of_ofComponents hcondensed)
    (Condensed.nodup_edges_of_ofComponents hcondensed')
  obtain ⟨count, hstaged, _⟩ := Plan.ofCondensed_of_acyclic c (hc.not_hasCycle h)
  have hplans := Plan.ofCondensed_eq_of_renumbers hτ.renumbersAdj hget
  have halike : Plan.ChecksAlike g c (g.addEdges copies) c' := by
    refine Plan.checksAlike_addEdges hcopies fun pair hpair => ?_
    have hincludes := h.mem_edgeNames.mp hpair
    have htarget := h.known pair.1 pair.2 hincludes
    rw [hc.componentOf_eq_iff h hincludes.known_source htarget,
      hc'.componentOf_eq_iff h' hincludes.known_source htarget]
  exact ⟨c, c', hcondensed, hcondensed', Condensed.edgeMembers_perm hτ hget,
    ⟨_, hstaged, hplans.trans hstaged⟩, halike.verify_eq⟩

theorem FileGraph.Represents.matches_addEdges (h : g.Represents units)
    {copies : List (Fin g.size × Fin g.size)} (hcopies : ∀ e ∈ copies, g.links.Adj e.1 e.2) :
    g.Matches (g.addEdges copies) := by
  have h' := h.addEdges hcopies
  have hsame : SameIncludes units units := ⟨fun _ => Iff.rfl, fun _ _ => Iff.rfl⟩
  exact {
    components_perm := hsame.components_perm h h'
    findCycles_eq := hsame.findCycles_eq h h'
    dependencies_eq := hsame.dependencies_eq h h'
    dependents_eq := hsame.dependents_eq h h'
    verify_eq := fun p _ => (Plan.checksAlike_addEdges hcopies fun _ _ => Iff.rfl).verify_eq p
    exists_condensed := h.exists_condensed_addEdges hcopies
  }

/-- Adding copies of its edges to a graph that was built changes nothing that is read off it.
Adding copies of its edges to any condensed graph, also to one with cycles or parallel edges,
changes neither the plan nor the error that staging it gives. -/
theorem copies_change_nothing (hbuild : FileGraph.build units = .ok g)
    {copies : List (Fin g.size × Fin g.size)} (hcopies : ∀ e ∈ copies, g.links.Adj e.1 e.2) :
    (∃ g', copies.foldlM (fun g e => g.addEdge? e.1 e.2) g = some g' ∧ g.Matches g') ∧
      ∀ (c : Condensed) (more : List (Fin c.size × Fin c.size)),
        (∀ e ∈ more, c.links.Adj e.1 e.2) →
          ∃ c', more.foldlM (fun c e => c.addEdge? e.1 e.2) c = some c' ∧
            Plan.ofCondensed c' = Plan.ofCondensed c := by
  have hgraph := FileGraph.represents_of_build hbuild
  refine ⟨⟨_, g.foldlM_addEdge? copies, hgraph.matches_addEdges hcopies⟩, fun c more hmore => ?_⟩
  exact ⟨_, c.foldlM_addEdge? more, Plan.ofCondensed_addEdges c hmore⟩

/-- The ring with every edge doubled, and a condensed graph around cycles with more copies of
one of its parallel edges and of its loop. -/
theorem copies_change_nothing_ring : ∃ g g', FileGraph.build Plan.ring = .ok g ∧
    g.links.edges.toList.foldlM (fun g e => g.addEdge? e.1 e.2) g = some g' ∧
    0 < g.links.edgeCount ∧ g.Matches g' ∧
    ∃ c', [((⟨0, by decide⟩, ⟨1, by decide⟩) : Fin Plan.tangled.size × Fin Plan.tangled.size),
        (⟨3, by decide⟩, ⟨3, by decide⟩)].foldlM (fun c e => c.addEdge? e.1 e.2) Plan.tangled =
          some c' ∧
      Plan.ofCondensed c' = Plan.ofCondensed Plan.tangled := by
  obtain ⟨g, hbuild⟩ := FileGraph.exists_build_of_known Plan.ring (by decide)
  have hcopies : ∀ e ∈ g.links.edges.toList, g.links.Adj e.1 e.2 :=
    fun e he => Array.mem_toList_iff.mp he
  obtain ⟨⟨g', hadded, hmatches⟩, hstaged⟩ := copies_change_nothing hbuild hcopies
  have hincludes : Includes Plan.ring "main.c" "a.h" := by decide
  have hedge : ("main.c", "a.h") ∈ FileGraph.edgeNames g.names g.links :=
    (FileGraph.represents_of_build hbuild).mem_edgeNames.mpr hincludes
  have hpos : 0 < g.links.edgeCount := by
    have hlength := List.length_pos_of_mem hedge
    rwa [FileGraph.edgeNames, List.length_map, Array.length_toList] at hlength
  refine ⟨g, g', hbuild, hadded, hpos, hmatches, hstaged Plan.tangled _ ?_⟩
  decide +kernel

end IncludeGraph
