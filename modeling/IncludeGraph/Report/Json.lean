import IncludeGraph.Binary64.Decimal
import IncludeGraph.Json.Number
import IncludeGraph.Json.Parser
import IncludeGraph.Json.Printer
import IncludeGraph.Report

/-!
# Reports as JSON

A report is written as an object whose members have a fixed order.  Reading is
more lenient: members may come in any order, unknown ones are skipped, and a list
of the values in the fixed order is read as well.
-/

namespace IncludeGraph

namespace Json

/-- A mapping from names as an object. -/
def ofEntries (entries : List (String × List String)) : Json :=
  ofMembers (entries.map fun (key, values) => (key, ofTexts values))

/-- The keys of an object, if all of them are proper texts. -/
def members? : Json → Option (List (String × Json))
  | object members => members.mapM fun (key, value) => key.map (·, value)
  | _ => none

def items? : Json → Option (List Json)
  | array items => some items
  | _ => none

def text? : Json → Option String
  | string text => text
  | _ => none

def nat? : Json → Option Nat
  | number literal => count? literal
  | _ => none

def float? : Json → Option Binary64
  | number literal => binary64? literal
  | _ => none

def texts? (value : Json) : Option (List String) := do
  (← value.items?).mapM text?

/-- The value of a member that occurs exactly once. -/
def only? (members : List (String × Json)) (key : String) : Option Json :=
  match members.filter (·.1 == key) with
  | [(_, value)] => some value
  | _ => none

/-- The values of the members with the given keys, from an object or from a list of
exactly these values. -/
def record? (keys : List String) : Json → Option (List Json)
  | array items => if items.length = keys.length then some items else none
  | value => do
    let members ← value.members?
    keys.mapM (only? members)

/-- Keeps the last of several neighbouring entries with equal keys. -/
def keepLast {β : Type} : List (String × β) → List (String × β)
  | x :: y :: rest => if x.1 == y.1 then keepLast (y :: rest) else x :: keepLast (y :: rest)
  | entries => entries

/-- Orders entries by key; of several with one key the last one counts. -/
def sortEntries {β : Type} (entries : List (String × β)) : List (String × β) :=
  keepLast (entries.mergeSort fun a b => decide (a.1 ≤ b.1))

def entries? (value : Json) : Option (List (String × List String)) := do
  let entries ← (← value.members?).mapM fun (key, value) => value.texts?.map (key, ·)
  return sortEntries entries

end Json

namespace Plan

def toJson (p : Plan) : Json := .array (p.stages.map Json.ofTexts)

def ofJson? (value : Json) : Option Plan := do
  return ⟨← (← value.items?).mapM Json.texts?⟩

end Plan

namespace CondensedEntry

def keys : List String := ["label", "members", "depends_on"]

def toJson (e : CondensedEntry) : Json :=
  .ofMembers (keys.zip [.ofText e.label, .ofTexts e.members, .ofTexts e.dependsOn])

def ofJson? (value : Json) : Option CondensedEntry := do
  match ← value.record? keys with
  | [label, members, dependsOn] =>
    return ⟨← label.text?, ← members.texts?, ← dependsOn.texts?⟩
  | _ => none

end CondensedEntry

namespace Stats

def keys : List String :=
  ["file_count", "edge_count", "density", "component_count", "cycle_count",
   "self_include_count", "weakly_connected_component_count", "isolated_file_count",
   "max_in_degree", "max_out_degree", "condensed_edge_count"]

def toJson (s : Stats) : Json :=
  .ofMembers (keys.zip
    [.ofNat s.fileCount, .ofNat s.edgeCount, .number s.density.text, .ofNat s.componentCount,
     .ofNat s.cycleCount, .ofNat s.selfIncludeCount, .ofNat s.weaklyConnectedComponentCount,
     .ofNat s.isolatedFileCount, .ofNat s.maxInDegree, .ofNat s.maxOutDegree,
     .ofNat s.condensedEdgeCount])

def ofJson? (value : Json) : Option Stats := do
  match ← value.record? keys with
  | [files, edges, density, components, cycles, selfIncludes, weak, isolated, maxIn, maxOut,
      condensedEdges] =>
    return {
      fileCount := ← files.nat?
      edgeCount := ← edges.nat?
      density := ← density.float?
      componentCount := ← components.nat?
      cycleCount := ← cycles.nat?
      selfIncludeCount := ← selfIncludes.nat?
      weaklyConnectedComponentCount := ← weak.nat?
      isolatedFileCount := ← isolated.nat?
      maxInDegree := ← maxIn.nat?
      maxOutDegree := ← maxOut.nat?
      condensedEdgeCount := ← condensedEdges.nat?
    }
  | _ => none

end Stats

namespace Report

def keys : List String :=
  ["files", "dependencies", "dependents", "cycles", "migration_plan", "condensed", "stats",
   "fingerprint"]

def toJson (r : Report) : Json :=
  .ofMembers (keys.zip
    [.ofTexts r.files, .ofEntries r.dependencies, .ofEntries r.dependents,
     .array (r.cycles.map .ofTexts), r.plan.toJson, .array (r.condensed.map (·.toJson)),
     r.stats.toJson, .ofText r.fingerprint])

def toText (r : Report) : String := r.toJson.pretty

def ofJson? (value : Json) : Option Report := do
  match ← value.record? keys with
  | [files, dependencies, dependents, cycles, plan, condensed, stats, fingerprint] =>
    return {
      files := ← files.texts?
      dependencies := ← dependencies.entries?
      dependents := ← dependents.entries?
      cycles := ← (← cycles.items?).mapM Json.texts?
      plan := ← Plan.ofJson? plan
      condensed := ← (← condensed.items?).mapM CondensedEntry.ofJson?
      stats := ← Stats.ofJson? stats
      fingerprint := ← fingerprint.text?
    }
  | _ => none

def ofText? (text : String) : Option Report := do
  ofJson? (← Json.parse text)

end Report

def Plan.ofText? (text : String) : Option Plan := do
  Plan.ofJson? (← Json.parse text)

end IncludeGraph
