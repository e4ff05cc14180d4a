import Std.Data.HashMap
import IncludeGraph.Component
import IncludeGraph.Digest.Blake3
import IncludeGraph.Digraph.Search
import IncludeGraph.Distinct
import IncludeGraph.Error
import IncludeGraph.SourceUnit

/-!
# The include graph

The nodes of a file graph are file names and its edges are includes: an edge from
`a` to `b` says that `a` includes `b`, so that `b` is a dependency of `a`.  Units
of one name share a node, and repeated includes share an edge.  Files that
include themselves keep their self-loop.
-/

namespace IncludeGraph

/-- Files and their includes.  Nodes and edges that are added later belong to
`links` alone: `index` and `fingerprint` stay as they were built. -/
structure FileGraph where
  size : Nat
  /-- The name of every node. -/
  names : Vector String size
  links : Digraph size
  /-- The node of every name. -/
  index : Std.HashMap String (Fin size)
  /-- A digest of the sets of names and of includes. -/
  fingerprint : String

namespace FileGraph

/-- The text whose digest is the fingerprint: every name on a line, a record
separator, and every include on a line with a zero character between its ends. -/
def signature (names : List String) (includes : List (String × String)) : String :=
  String.join (names.map (· ++ "\n")) ++ "\x1e" ++
    String.join (includes.map fun (source, target) => source ++ "\x00" ++ target ++ "\n")

/-- The fingerprint of a set of names and a set of includes, in any order. -/
def fingerprintOf (names : List String) (includes : List (String × String)) : String :=
  "blake3:" ++ Blake3.hexDigest
    (signature (Text.sortDistinct names) (Text.sortDistinctPairs includes)).toUTF8

def indexNames {n : Nat} (names : Vector String n) : Std.HashMap String (Fin n) :=
  (List.finRange n).foldl (fun index i => index.insert (names.get i) i) ∅

def resolve {n : Nat} (index : Std.HashMap String (Fin n)) (pair : String × String) :
    Except AnalysisError (Fin n × Fin n) :=
  match index[pair.1]?, index[pair.2]? with
  | some source, some target => .ok (source, target)
  | _, _ => .error (.unknownDependency pair.1 pair.2)

/-- The names of the two ends of every edge, in the order of the edges. -/
def edgeNames {n : Nat} (names : Vector String n) (links : Digraph n) : List (String × String) :=
  links.edges.toList.map fun e => (names.get e.1, names.get e.2)

/-- Builds the graph of a list of units.  Nodes follow the first occurrence of
their names and edges the first occurrence of their includes.  The first include
that names no unit is an error. -/
def build (units : List SourceUnit) : Except AnalysisError FileGraph := do
  let names := (firstOccurrences (units.map (·.name))).toArray
  let names : Vector String names.size := ⟨names, rfl⟩
  let index := indexNames names
  let edges ← (includePairs units).mapM (resolve index)
  let links := Digraph.ofEdges (firstOccurrences edges)
  return {
    size := _
    names := names
    links := links
    index := index
    fingerprint := fingerprintOf names.toList (edgeNames names links)
  }

/-- The targets of the edges by source, each list in the order of the edges. -/
def groupTargets (edges : List (String × String)) : Std.HashMap String (Array String) :=
  edges.foldl (fun groups (source, target) =>
    groups.alter source fun targets => some ((targets.getD #[]).push target)) ∅

/-- Builds the graph of a list of names and a list of edges.  An edge from an
unknown name is an error before any edge to one; among the latter, the order of
the names and then that of the edges decides. -/
def ofEdges (nodes : List String) (edges : List (String × String)) :
    Except AnalysisError FileGraph :=
  let known := Std.HashSet.ofList nodes
  match edges.find? fun e => !known.contains e.1 with
  | some (source, target) => .error (.unknownDependency source target)
  | none =>
    let targets := groupTargets edges
    build ((firstOccurrences nodes).map fun name => ⟨name, (targets.getD name #[]).toList⟩)

def nodeCount (g : FileGraph) : Nat := g.size

def edgeCount (g : FileGraph) : Nat := g.links.edgeCount

def node? (g : FileGraph) (name : String) : Option (Fin g.size) := g.index[name]?

def name? (g : FileGraph) (node : Nat) : Option String := g.names[node]?

/-- All names in order; names that nodes share are repeated. -/
def sortedFiles (g : FileGraph) : List String := Text.sortNames g.names.toList

/-- The names of the nodes that a table lists for a name, sorted and each once;
none for an unknown name. -/
def neighbourNames (g : FileGraph) (table : Vector (List (Fin g.size)) g.size) (name : String) :
    List String :=
  match g.node? name with
  | some i => Text.sortDistinct ((table.get i).map g.names.get)
  | none => []

/-- The files that a file includes, in order. -/
def dependencies (g : FileGraph) (name : String) : List String :=
  g.neighbourNames g.links.outgoing name

/-- The files that include a file, in order. -/
def dependents (g : FileGraph) (name : String) : List String :=
  g.neighbourNames g.links.incoming name

def selfLoops (g : FileGraph) : Marks g.size :=
  g.links.edges.foldl (fun marks e =>
    let v : Fin g.size := e.1
    if v = e.2 then marks.set v true v.isLt else marks) Marks.none

def includesItself (g : FileGraph) (node : Nat) : Bool :=
  if h : node < g.size then g.selfLoops.get ⟨node, h⟩ else false

/-- Adds a node that the names do not lead to. -/
def addNode (g : FileGraph) (name : String) : FileGraph where
  size := g.size + 1
  names := g.names.push name
  links := g.links.addNode
  index := g.index.map fun _ i => i.castSucc
  fingerprint := g.fingerprint

def addEdge? (g : FileGraph) (source target : Nat) : Option FileGraph :=
  if h : source < g.size ∧ target < g.size then
    some { g with links := g.links.addEdge ⟨source, h.1⟩ ⟨target, h.2⟩ }
  else none

/-- The strongly connected components in the order of their discovery, members
sorted. -/
def components (g : FileGraph) : List Component :=
  let loops := g.selfLoops
  g.links.stronglyConnected.map fun group => {
    members := Text.sortNames (group.map g.names.get)
    selfLoop := match group with
      | [i] => loops.get i
      | _ => false
  }

end FileGraph

end IncludeGraph
