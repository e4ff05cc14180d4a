import IncludeGraph.Output.CycleListing
import IncludeGraph.Output.PlanListing
import IncludeGraph.Report.Json

/-!
# Listing reports

A report is listed as a line of counts with its cycles and stages, or as a column
of statistics with the sections for cycles and stages.
-/

namespace IncludeGraph.Output.ReportListing

/-- A line of counts, then a line for each cycle and each stage. -/
def textLines (r : Report) : List String :=
  ("files " ++ toString r.stats.fileCount ++ "  edges " ++ toString r.stats.edgeCount ++
    "  cycles " ++ toString r.cycles.length ++ "  stages " ++ toString r.plan.stageCount ++
    "  fingerprint " ++ r.fingerprint) ::
  CycleListing.textLines r.cycles ++ (PlanListing.ofReport r false).textLines

/-- A column of statistics. -/
def statsLines (r : Report) : List String :=
  titled "Include graph" ++ [
    keyValue "Files" (toString r.stats.fileCount),
    keyValue "Includes" (toString r.stats.edgeCount),
    keyValue "Density" (r.stats.density.fixed 4),
    keyValue "Components" (toString r.stats.componentCount),
    keyValue "Cycles" (toString r.cycles.length),
    keyValue "Self-includes" (toString r.stats.selfIncludeCount),
    keyValue "Isolated" (toString r.stats.isolatedFileCount),
    keyValue "Max fan-in" (toString r.stats.maxInDegree),
    keyValue "Max fan-out" (toString r.stats.maxOutDegree),
    keyValue "Fingerprint" r.fingerprint]

/-- The statistics, the cycles and the plan, with an empty line between them. -/
def prettyLines (r : Report) : List String :=
  statsLines r ++ [""] ++ CycleListing.prettyLines r.cycles ++ [""] ++
    (PlanListing.ofReport r false).prettyLines

/-- What is said once a report has been written to a file. -/
structure Receipt where
  path : String
  files : Nat
  cycles : Nat
  stages : Nat

namespace Receipt

def ofReport (path : String) (r : Report) : Receipt :=
  ⟨path, r.stats.fileCount, r.cycles.length, r.plan.stageCount⟩

def textLines (receipt : Receipt) : List String := ["wrote " ++ receipt.path]

def prettyLines (receipt : Receipt) : List String :=
  ["Report written to " ++ receipt.path ++ " (" ++ toString receipt.files ++ " files, " ++
    toString receipt.cycles ++ " cycles, " ++ toString receipt.stages ++ " stages)"]

def toJson (receipt : Receipt) : Json :=
  .ofMembers [("report", .ofText receipt.path), ("files", .ofNat receipt.files),
    ("cycles", .ofNat receipt.cycles), ("stages", .ofNat receipt.stages)]

end Receipt

end IncludeGraph.Output.ReportListing
