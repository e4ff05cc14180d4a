import IncludeGraph.Digraph.Basic

/-!
# Depth-first search and strongly connected components

Components are found in two passes.  The first runs a depth-first search from
every node in order and records each node when its last edge has been explored.
The second walks the edges backwards from the nodes in reverse order of that
record; each walk from an unassigned node claims exactly one component.  Both
passes keep their own stack, so a long chain of includes needs no deep recursion.
The second pass, run along edges in both directions, gives the weakly connected
components.

`Digraph.postorder` is the same first pass written as a plain recursion over
the graph.
-/

namespace IncludeGraph

/-- A set of nodes as one truth value per node. -/
abbrev Marks (n : Nat) := Vector Bool n

namespace Marks

variable {n : Nat}

def none : Marks n := Vector.replicate n false

/-- Number of unmarked nodes, the quantity that every search uses up. -/
def unmarked (marks : Marks n) : Nat := marks.countP (!·)

/-- Marking an unmarked node leaves one node fewer to mark. -/
theorem unmarked_set (marks : Marks n) (v : Fin n) (h : marks.get v = false) :
    unmarked (marks.set v true v.isLt) + 1 = marks.unmarked := by
  have hcount : (marks.set v true v.isLt).countP (!·) =
      marks.countP (!·) - (if (!marks[(v : Nat)]) = true then 1 else 0) + 0 :=
    Vector.countP_set v.isLt
  have hv : marks[(v : Nat)] = false := h
  have hpos : 0 < marks.countP (!·) := by
    apply Vector.countP_pos_iff.2
    exact ⟨marks[(v : Nat)], by simp, by simp [hv]⟩
  simp [hv] at hcount
  simp only [unmarked]
  omega

end Marks

namespace Digraph

variable {n : Nat}

/-- The part of a depth-first search that is still to do: the nodes on the
current path, each with the neighbours that it has not yet looked at. -/
abbrev Path (n : Nat) := List (Fin n × List (Fin n))

/-- Steps that the neighbours listed on a path can still cause. -/
def Path.weight (path : Path n) : Nat :=
  path.foldr (fun entry total => entry.2.length + 1 + total) 0

/-- Runs a depth-first search to its end.  `finished` lists the nodes that are
done, the last one first. -/
def search (next : Vector (List (Fin n)) n) (visited : Marks n) (path : Path n)
    (finished : List (Fin n)) : Marks n × List (Fin n) :=
  match path with
  | [] => (visited, finished)
  | (v, []) :: path => search next visited path (v :: finished)
  | (v, w :: ws) :: path =>
    match hvisited : visited.get w with
    | true => search next visited ((v, ws) :: path) finished
    | false =>
      have := Marks.unmarked_set visited w hvisited
      search next (visited.set w true w.isLt) ((w, next.get w) :: (v, ws) :: path) finished
termination_by (visited.unmarked, path.weight)
decreasing_by
  · apply Prod.Lex.right
    simp [Path.weight]
  · apply Prod.Lex.right
    simp [Path.weight]
  · apply Prod.Lex.left
    omega

def searchFrom (next : Vector (List (Fin n)) n) (state : Marks n × List (Fin n)) (root : Fin n) :
    Marks n × List (Fin n) :=
  if state.1.get root then state
  else search next (state.1.set root true root.isLt) [(root, next.get root)] state.2

/-- All nodes in reverse order of their completion: the node finished last comes
first. -/
def reverseFinishOrder (g : Digraph n) : List (Fin n) :=
  let next := g.outgoing
  ((List.finRange n).foldl (searchFrom next) (Marks.none, [])).2

/-- All nodes in the order in which a depth-first search from every node, in
node order, completes them. -/
def finishOrder (g : Digraph n) : List (Fin n) :=
  g.reverseFinishOrder.reverse

/-- Marks the unassigned nodes of a list and puts them on the stack, the last of
them on top. -/
def claim (assigned : Marks n) (stack : List (Fin n)) : List (Fin n) → Marks n × List (Fin n)
  | [] => (assigned, stack)
  | v :: vs =>
    if assigned.get v then claim assigned stack vs
    else claim (assigned.set v true v.isLt) (v :: stack) vs

/-- Each claimed node moves from the unassigned ones to the stack. -/
theorem claim_measure (assigned : Marks n) (stack vs : List (Fin n)) :
    (claim assigned stack vs).1.unmarked + (claim assigned stack vs).2.length =
      assigned.unmarked + stack.length := by
  induction vs generalizing assigned stack with
  | nil => rfl
  | cons v vs ih =>
    rw [claim]
    split
    · exact ih assigned stack
    · rename_i h
      have hset := Marks.unmarked_set assigned v (by simpa using h)
      have hnext := ih (assigned.set v true v.isLt) (v :: stack)
      simp only [List.length_cons] at hnext
      omega

/-- Gathers the unassigned nodes that can be reached from the stack, in the order
in which the stack gives its nodes up.  `gathered` holds the ones so far, newest
first. -/
def gather (links : Vector (List (Fin n)) n) (assigned : Marks n) (stack gathered : List (Fin n)) :
    Marks n × List (Fin n) :=
  match stack with
  | [] => (assigned, gathered.reverse)
  | v :: stack =>
    let next := claim assigned stack (links.get v)
    gather links next.1 next.2 (v :: gathered)
termination_by assigned.unmarked + stack.length
decreasing_by
  have := claim_measure assigned stack (links.get v)
  simp only [List.length_cons]
  omega

/-- Adds the group of `root`, unless it has been assigned already, to the groups
so far, newest first. -/
def gatherFrom (links : Vector (List (Fin n)) n) (state : Marks n × List (List (Fin n)))
    (root : Fin n) : Marks n × List (List (Fin n)) :=
  if state.1.get root then state
  else
    let found := gather links (state.1.set root true root.isLt) [root] []
    (found.1, found.2 :: state.2)

/-- Splits the nodes into groups: each root that no earlier root has claimed
claims everything unassigned that it leads to. -/
def sweep (links : Vector (List (Fin n)) n) (roots : List (Fin n)) : List (List (Fin n)) :=
  (roots.foldl (gatherFrom links) (Marks.none, [])).2.reverse

/-- The strongly connected components in the order of their discovery: a
component comes before the components that it has edges to. -/
def stronglyConnected (g : Digraph n) : List (List (Fin n)) :=
  sweep g.incoming g.reverseFinishOrder

/-- The components of the graph when the direction of its edges is ignored. -/
def weaklyConnected (g : Digraph n) : List (List (Fin n)) :=
  sweep (g.outgoing.zipWith (· ++ ·) g.incoming) (List.finRange n)

/-- No directed cycle: every strongly connected component is a single node, and
no edge is a self-loop. -/
def isAcyclic (g : Digraph n) : Bool :=
  g.stronglyConnected.all (·.length == 1) && g.edges.all (fun e => e.1 != e.2)

/-- A depth-first search written as a recursion over the graph: the nodes of
`todo` are visited in turn, and a node is listed after everything that is first
reached through it.  `fuel` bounds the number of nodes still to visit. -/
def postorderOf (g : Digraph n) : Nat → Marks n → List (Fin n) → Marks n × List (Fin n)
  | _, visited, [] => (visited, [])
  | 0, visited, _ :: _ => (visited, [])
  | fuel + 1, visited, v :: vs =>
    if visited.get v then postorderOf g (fuel + 1) visited vs
    else
      let below := postorderOf g fuel (visited.set v true v.isLt) (g.successors v)
      let rest := postorderOf g (fuel + 1) below.1 vs
      (rest.1, below.2 ++ [v] ++ rest.2)
termination_by fuel _ todo => (fuel, todo.length)

def postorder (g : Digraph n) : List (Fin n) :=
  (g.postorderOf n Marks.none (List.finRange n)).2

end Digraph

end IncludeGraph
