import IncludeGraph.Plan
import IncludeGraph.Stats

/-!
# Analysis reports

`analyze` builds the include graph of a list of units, finds its cycles, condenses
it, stages a migration plan and checks it.  All lists of a report are sorted, so
that equal inputs give equal reports.
-/

namespace IncludeGraph

structure CondensedEntry where
  label : String
  members : List String
  /-- The labels of the components that it depends on. -/
  dependsOn : List String
deriving DecidableEq, Repr

structure Report where
  files : List String
  /-- The dependencies of every file, ordered by file. -/
  dependencies : List (String × List String)
  /-- The dependents of every file, ordered by file. -/
  dependents : List (String × List String)
  cycles : List (List String)
  plan : Plan
  /-- One entry for each component, ordered by label. -/
  condensed : List CondensedEntry
  stats : Stats
  fingerprint : String
deriving DecidableEq

namespace Report

/-- The entries of all components, ordered by label.  A report leaves open how entries with the
same label stand to each other: that they keep the order of their components is a choice made
here, on which no result relies. -/
def condensedEntries (c : Condensed) : List CondensedEntry :=
  let labels := c.dependencyLabels
  let entries := (List.finRange c.size).map fun i => {
    label := (c.components.get i).label
    members := (c.components.get i).members
    dependsOn := labels.get i
  }
  entries.mergeSort fun a b => decide (a.label ≤ b.label)

def gather (g : FileGraph) (cycles : List (List String)) (c : Condensed) (plan : Plan) : Report :=
  let files := g.sortedFiles
  let outgoing := g.links.outgoing
  let incoming := g.links.incoming
  {
    files := files
    dependencies := files.map fun file => (file, g.neighbourNames outgoing file)
    dependents := files.map fun file => (file, g.neighbourNames incoming file)
    cycles := cycles
    plan := plan
    condensed := condensedEntries c
    stats := Stats.compute g c
    fingerprint := g.fingerprint
  }

def stageOf (r : Report) (file : String) : Option Nat := r.plan.stageOf file

end Report

/-- Analyzes a list of units.  The only failure of a correct program is an include
that names no unit. -/
def analyze (units : List SourceUnit) (policy : SelfLoopPolicy) :
    Except AnalysisError Report := do
  let graph ← FileGraph.build units
  let components := graph.components
  let cycles := findCycles components policy
  let condensed ← Condensed.ofComponents graph components
  let plan ← Plan.ofCondensed condensed
  plan.verify graph condensed
  return Report.gather graph cycles condensed plan

end IncludeGraph
