import IncludeGraph.Binary64.Basic
import IncludeGraph.Condensed

/-!
# Graph statistics

Counts of files, includes and components, and the density of the include graph:
the share of the ordered pairs of different files that are joined by an include.
-/

namespace IncludeGraph

structure Stats where
  fileCount : Nat
  edgeCount : Nat
  /-- Includes per ordered pair of different files; zero for fewer than two files. -/
  density : Binary64
  componentCount : Nat
  /-- Components with more than one file. -/
  cycleCount : Nat
  /-- Files that include themselves. -/
  selfIncludeCount : Nat
  /-- Parts of the graph that no include joins, in either direction. -/
  weaklyConnectedComponentCount : Nat
  /-- Files that include nothing and that nothing includes. -/
  isolatedFileCount : Nat
  maxInDegree : Nat
  maxOutDegree : Nat
  condensedEdgeCount : Nat
deriving DecidableEq

namespace Stats

/-- The number of includes divided by that of the ordered pairs of different files.  The
counts, the pairs and the quotient are rounded one after the other; `none` if one of them is
beyond the greatest number, which no counts of 64 bits lead to. -/
def includesPerPair? (files edges : Nat) : Option Binary64 := do
  let count ← Binary64.ofNat? files
  let pairs ← count.mul? (← count.sub? .one)
  (← Binary64.ofNat? edges).div? pairs

/-- The density of a graph with the given numbers of files and includes. -/
def densityOf (files edges : Nat) : Binary64 :=
  if files < 2 then .zero else (includesPerPair? files edges).getD .zero

/-- The statistics of a graph and its condensation.  Parallel edges count. -/
def compute (g : FileGraph) (c : Condensed) : Stats :=
  let outDegrees := g.links.outgoing.map List.length
  let inDegrees := g.links.incoming.map List.length
  {
    fileCount := g.nodeCount
    edgeCount := g.edgeCount
    density := densityOf g.nodeCount g.edgeCount
    componentCount := c.componentCount
    cycleCount := c.cycleCount
    selfIncludeCount := g.selfLoops.countP id
    weaklyConnectedComponentCount := g.links.weaklyConnected.length
    isolatedFileCount := (outDegrees.zipWith (· + ·) inDegrees).countP (· == 0)
    maxInDegree := inDegrees.foldl max 0
    maxOutDegree := outDegrees.foldl max 0
    condensedEdgeCount := c.links.edgeCount
  }

end Stats

end IncludeGraph
