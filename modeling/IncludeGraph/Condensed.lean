import IncludeGraph.FileGraph
import IncludeGraph.FileTable

/-!
# The condensed graph

Condensing makes one node out of every component and joins two different
components by an edge if some file of the one includes a file of the other.  The
components have to partition the files, and the result must have no cycle.
-/

namespace IncludeGraph

/-- The graph of the components of a file graph. -/
structure Condensed where
  size : Nat
  components : Vector Component size
  links : Digraph size
  /-- The component of every file. -/
  home : FileTable (Fin size)

namespace Condensed

/-- The component of every listed member. -/
def homes {n : Nat} (components : Vector Component n) : Except AnalysisError (FileTable (Fin n)) :=
  FileTable.ofGroups .sharedFile
    ((List.finRange n).map fun i => (i, (components.get i).members))

def homeOf {n : Nat} (g : FileGraph) (home : FileTable (Fin n)) (node : Fin g.size) :
    Except AnalysisError (Fin n) :=
  match home[g.names.get node]? with
  | some component => .ok component
  | none => .error (.invariantViolation (.unassignedNode node))

def homesOf {n : Nat} (g : FileGraph) (home : FileTable (Fin n))
    (e : Fin g.size × Fin g.size) : Except AnalysisError (Fin n × Fin n) := do
  let source ← homeOf g home e.1
  let target ← homeOf g home e.2
  return (source, target)

/-- Condenses a graph by a list of components.  Component `i` becomes node `i`, and
the edges follow the first edge of the graph between their components. -/
def ofComponents (g : FileGraph) (components : List Component) :
    Except AnalysisError Condensed := do
  let components : Vector Component components.toArray.size := ⟨components.toArray, rfl⟩
  let home ← homes components
  if home.size ≠ g.size then
    throw (.invariantViolation (.coverage home.size g.size))
  let ends ← g.links.edges.toList.mapM (homesOf g home)
  let links := Digraph.ofEdges (firstOccurrences (ends.filter fun e => e.1 != e.2))
  if !links.isAcyclic then
    throw (.invariantViolation .condensedCycle)
  return { size := _, components := components, links := links, home := home }

def componentCount (c : Condensed) : Nat := c.size

def cycleCount (c : Condensed) : Nat := c.components.countP (·.isCycle)

def componentOf (c : Condensed) (file : String) : Option (Fin c.size) := c.home[file]?

def component? (c : Condensed) (node : Nat) : Option Component := c.components[node]?

/-- For every component the labels of the components that it depends on, sorted;
one label for each edge. -/
def dependencyLabels (c : Condensed) : Vector (List String) c.size :=
  c.links.outgoing.map fun targets =>
    Text.sortNames (targets.map fun target => (c.components.get target).label)

def addEdge? (c : Condensed) (source target : Nat) : Option Condensed :=
  if h : source < c.size ∧ target < c.size then
    some { c with links := c.links.addEdge ⟨source, h.1⟩ ⟨target, h.2⟩ }
  else none

end Condensed

end IncludeGraph
