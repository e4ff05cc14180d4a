/-!
# Finite directed graphs

Nodes are the numbers below `n` and edges are kept in insertion order.  Parallel
edges and self-loops are allowed.  Neighbours are listed newest edge first; a
neighbour joined by several edges is listed once for each.
-/

namespace IncludeGraph

/-- A directed graph on the nodes `0, …, n - 1` with its edges in insertion order. -/
structure Digraph (n : Nat) where
  edges : Array (Fin n × Fin n)
deriving DecidableEq, Repr

namespace Digraph

variable {n : Nat}

def empty : Digraph n := ⟨#[]⟩

def ofEdges (edges : List (Fin n × Fin n)) : Digraph n := ⟨edges.toArray⟩

/-- Adds an edge as the newest one; parallel copies are kept. -/
def addEdge (g : Digraph n) (source target : Fin n) : Digraph n :=
  ⟨g.edges.push (source, target)⟩

def addNode (g : Digraph n) : Digraph (n + 1) :=
  ⟨g.edges.map fun e => (e.1.castSucc, e.2.castSucc)⟩

def edgeCount (g : Digraph n) : Nat := g.edges.size

def Adj (g : Digraph n) (source target : Fin n) : Prop :=
  (source, target) ∈ g.edges

instance (g : Digraph n) (source target : Fin n) : Decidable (g.Adj source target) :=
  inferInstanceAs (Decidable (_ ∈ _))

/-- `Reaches g u v` holds if a path of zero or more edges leads from `u` to `v`. -/
inductive Reaches (g : Digraph n) : Fin n → Fin n → Prop
  | refl (u : Fin n) : Reaches g u u
  | step {u v w : Fin n} : g.Adj u v → Reaches g v w → Reaches g u w

def MutuallyReachable (g : Digraph n) (u v : Fin n) : Prop :=
  g.Reaches u v ∧ g.Reaches v u

/-- A directed cycle: an edge whose target leads back to its source. -/
def HasCycle (g : Digraph n) : Prop :=
  ∃ u v, g.Adj u v ∧ g.Reaches v u

/-- For each node the far ends of its edges, newest edge first, where `near` and
`far` select the two ends of an edge. -/
def adjacency (g : Digraph n) (near far : Fin n × Fin n → Fin n) : Vector (List (Fin n)) n :=
  g.edges.foldl (fun table e =>
    let v := near e
    table.set v (far e :: table.get v) v.isLt) (Vector.replicate n [])

/-- Targets of the outgoing edges of every node, newest edge first. -/
def outgoing (g : Digraph n) : Vector (List (Fin n)) n :=
  g.adjacency Prod.fst Prod.snd

/-- Sources of the incoming edges of every node, newest edge first. -/
def incoming (g : Digraph n) : Vector (List (Fin n)) n :=
  g.adjacency Prod.snd Prod.fst

def successors (g : Digraph n) (v : Fin n) : List (Fin n) :=
  (g.edges.toList.filterMap fun e => if e.1 = v then some e.2 else none).reverse

def predecessors (g : Digraph n) (v : Fin n) : List (Fin n) :=
  (g.edges.toList.filterMap fun e => if e.2 = v then some e.1 else none).reverse

end Digraph

end IncludeGraph
