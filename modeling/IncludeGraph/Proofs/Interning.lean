import IncludeGraph.Proofs.Counts

/-!
# What a built graph holds

Building a graph interns names: units of one name share a node, and includes of one file by
another share an edge, however often and in however many units they are written.  The look-up
of names and the table of nodes undo each other, and both nodes and edges stand in the order
in which the units bring them up first.
-/

namespace IncludeGraph.FileGraph

variable {units : List SourceUnit} {g : FileGraph}

/-- The graph has a node for every name and an edge for every include of the units, each of
them once and in the order of their first places. -/
structure Interns (g : FileGraph) (units : List SourceUnit) : Prop where
  nodes_inFirstOrder : InFirstOrder g.names.toList (units.map (·.name))
  node?_eq_some_iff : ∀ name i, g.node? name = some i ↔ g.names.get i = name
  edge_iff : ∀ source target,
    (∃ i j, g.node? source = some i ∧ g.node? target = some j ∧ g.links.Adj i j) ↔
      Includes units source target
  nodup_edges : g.links.edges.toList.Nodup
  edges_inFirstOrder : InFirstOrder (edgeNames g.names g.links) (includePairs units)
  nodeCount_eq : (g.nodeCount : ℕ∞) = {name | Known units name}.encard
  edgeCount_eq : (g.edgeCount : ℕ∞) =
    {pair : String × String | Includes units pair.1 pair.2}.encard

/-- Looking up both ends of an include leads to an edge. -/
theorem Represents.edge_iff (h : g.Represents units) {source target : String} :
    (∃ i j, g.node? source = some i ∧ g.node? target = some j ∧ g.links.Adj i j) ↔
      Includes units source target := by
  simp only [h.node?_eq]
  constructor
  · rintro ⟨i, j, rfl, rfl, hadj⟩
    exact (h.adj_iff i j).mp hadj
  · intro hincludes
    obtain ⟨i, rfl⟩ := (h.known_iff source).mp hincludes.known_source
    obtain ⟨j, rfl⟩ := (h.known_iff target).mp (h.known _ target hincludes)
    exact ⟨i, j, rfl, rfl, (h.adj_iff i j).mpr hincludes⟩

/-- Every graph that is built interns its units. -/
theorem interns_of_build (hbuild : build units = .ok g) : g.Interns units := by
  have hgraph := represents_of_build hbuild
  have hedges := nodup_edges_of_build hbuild
  exact {
    nodes_inFirstOrder := names_of_build hbuild ▸ inFirstOrder_firstOccurrences _
    node?_eq_some_iff := hgraph.node?_eq
    edge_iff := fun _ _ => hgraph.edge_iff
    nodup_edges := hedges
    edges_inFirstOrder := edgeNames_of_build hbuild ▸ inFirstOrder_firstOccurrences _
    nodeCount_eq := hgraph.encard_known.symm
    edgeCount_eq := (hgraph.encard_includes hedges).symm
  }

/-- A header in two units, with an include that it writes three times. -/
def headerInTwoUnits : List SourceUnit :=
  [⟨"util.h", ["a.h", "a.h"]⟩, ⟨"a.h", []⟩, ⟨"b.h", ["util.h"]⟩, ⟨"util.h", ["b.h", "a.h"]⟩]

/-- The second unit of the header adds its new include after those of the units before it. -/
theorem interns_of_build_headerInTwoUnits : ∃ g, build headerInTwoUnits = .ok g ∧
    g.Interns headerInTwoUnits ∧ g.names.toList = ["util.h", "a.h", "b.h"] ∧
    edgeNames g.names g.links = [("util.h", "a.h"), ("b.h", "util.h"), ("util.h", "b.h")] := by
  obtain ⟨g, hbuild⟩ := exists_build_of_known headerInTwoUnits (by decide)
  refine ⟨g, hbuild, interns_of_build hbuild, ?_, ?_⟩
  · rw [names_of_build hbuild]
    simp [headerInTwoUnits, firstOccurrences, appendUnseen]
  · rw [edgeNames_of_build hbuild]
    simp [headerInTwoUnits, includePairs, firstOccurrences, appendUnseen]

end IncludeGraph.FileGraph
