import IncludeGraph.Condensed

/-!
# Migration plans

A plan is a list of stages.  A file may only depend on files of earlier stages
and on files of its own component, which share its stage.

`Plan.ofCondensed` settles components round by round.  Every component starts
with the number of its edges to components that are not settled yet; a round
settles all components whose count is zero and lowers the counts of their
dependents.  `Plan.verify` checks any plan against a graph.
-/

namespace IncludeGraph

/-- Stages in order, each a list of file names. -/
structure Plan where
  stages : List (List String)
deriving DecidableEq, Repr

namespace Plan

/-- Lowers the counts of the dependents of a settled component and appends those
that reach zero to the components that are ready. -/
def release {n : Nat} (state : Vector Nat n × Array (Fin n)) (dependent : Fin n) :
    Vector Nat n × Array (Fin n) :=
  let count := state.1.get dependent - 1
  let pending := state.1.set dependent count dependent.isLt
  (pending, if count = 0 then state.2.push dependent else state.2)

/-- Settles the components that are ready and finds the ones that this makes ready. -/
def settle {n : Nat} (dependents : Vector (List (Fin n)) n) (pending : Vector Nat n)
    (ready : List (Fin n)) : Vector Nat n × Array (Fin n) :=
  ready.foldl (fun state i => (dependents.get i).foldl release state) (pending, #[])

/-- The stage of a group of components: all their files, sorted. -/
def stageOfGroup {n : Nat} (components : Vector Component n) (group : List (Fin n)) :
    List String :=
  Text.sortNames (group.flatMap fun i => (components.get i).members)

/-- Settles the remaining components.  `settled` of them are done and `stages`
holds the stages so far. -/
def rounds (c : Condensed) (dependents : Vector (List (Fin c.size)) c.size)
    (pending : Vector Nat c.size) (ready : List (Fin c.size)) (settled : Nat)
    (stages : Array (List String)) : Except AnalysisError (Array (List String)) :=
  if settled < c.size then
    match ready with
    | [] => .error (.invariantViolation (.stalled (c.size - settled) c.size))
    | first :: others =>
      let group := first :: others
      let next := settle dependents pending group
      rounds c dependents next.1 next.2.toList (settled + group.length)
        (stages.push (stageOfGroup c.components group))
  else .ok stages
termination_by c.size - settled
decreasing_by
  simp only [List.length_cons]
  omega

def ofCondensed (c : Condensed) : Except AnalysisError Plan := do
  let pending := c.links.outgoing.map List.length
  let ready := (List.finRange c.size).filter fun i => pending.get i == 0
  let stages ← rounds c c.links.incoming pending ready 0 #[]
  return ⟨stages.toList⟩

def stageCount (p : Plan) : Nat := p.stages.length

def isEmpty (p : Plan) : Bool := p.stages.isEmpty

/-- Halves a range of `size` entries that starts at `base` until one is left.  The
upper half is kept unless its first entry is greater than the name. -/
def bisect (entries : Array String) (name : String) (base size : Nat) : Nat :=
  if 1 < size then
    let half := size / 2
    let middle := base + half
    let next := if decide (name < entries.getD middle "") then base else middle
    bisect entries name next (size - half)
  else base
termination_by size
decreasing_by omega

/-- Looks a name up in a list by bisection.  Every name of a sorted list is found;
a list that is not sorted may hide some of its names. -/
def findSorted (entries : List String) (name : String) : Bool :=
  let entries := entries.toArray
  entries[bisect entries name 0 entries.size]? == some name

/-- The first stage in which a file is found. -/
def stageOf (p : Plan) (file : String) : Option Nat :=
  p.stages.findIdx? (findSorted · file)

def stageMap (p : Plan) : Except AnalysisError (FileTable Nat) :=
  FileTable.ofGroups .repeatedFile (p.stages.zipIdx.map Prod.swap)

/-- Checks one include: files of one component share a stage, and otherwise the
included file comes first. -/
def checkInclude (c : Condensed) (stages : FileTable Nat) (source target : String) :
    Except AnalysisError Unit :=
  let sourceStage := stages.getD source 0
  let targetStage := stages.getD target 0
  if c.componentOf source = c.componentOf target then
    if sourceStage ≠ targetStage then
      .error (.invariantViolation (.splitCycle source target))
    else .ok ()
  else if sourceStage ≤ targetStage then
    .error (.invariantViolation (.lateDependency source sourceStage target targetStage))
  else .ok ()

/-- Checks that the plan lists every file of the graph once and nothing else, and
that it respects every include. -/
def verify (p : Plan) (g : FileGraph) (c : Condensed) : Except AnalysisError Unit := do
  let stages ← p.stageMap
  match g.names.toList.find? fun file => !stages.contains file with
  | some file => throw (.invariantViolation (.missingFile file))
  | none =>
    if stages.size ≠ g.size then
      throw (.invariantViolation .foreignFiles)
    (FileGraph.edgeNames g.names g.links).forM fun (source, target) =>
      checkInclude c stages source target

end Plan

end IncludeGraph
