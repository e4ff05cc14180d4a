import IncludeGraph.Json.Printer
import IncludeGraph.Output.Layout
import IncludeGraph.Report

/-!
# Listing plans

A plan is listed with one line or one section for each stage.  The listing can
explain every file by its dependencies and the stages that they are in.
-/

namespace IncludeGraph.Output

/-- A file that another one depends on, with its stage. -/
structure StagedFile where
  file : String
  stage : Nat
deriving DecidableEq, Repr

/-- What a listing of a plan shows. -/
structure PlanListing where
  stages : List (List String)
  /-- The staged dependencies of the files that are explained, ordered by file. -/
  explanations : List (String × List StagedFile)
deriving DecidableEq, Repr

namespace PlanListing

/-- The dependencies of every file of a report with their stages. -/
def explain (r : Report) : List (String × List StagedFile) :=
  r.dependencies.map fun (file, targets) =>
    (file, targets.filterMap fun target => (r.stageOf target).map (⟨target, ·⟩))

def ofReport (r : Report) (explained : Bool) : PlanListing where
  stages := r.plan.stages
  explanations := if explained then explain r else []

/-- One line for each stage. -/
def textLines (l : PlanListing) : List String :=
  l.stages.zipIdx.map fun (stage, i) =>
    "stage " ++ toString i ++ "  " ++ " ".intercalate stage

/-- The line that explains the place of a file by its dependencies. -/
def explanationLine (targets : List StagedFile) : String :=
  if targets.isEmpty then "    ready: no local includes"
  else
    "    depends_on: " ++ ", ".intercalate (targets.map fun target =>
      target.file ++ " (stage " ++ toString target.stage ++ ")")

def fileLines (l : PlanListing) (file : String) : List String :=
  ("  - " ++ file) :: ((l.explanations.lookup file).map explanationLine).toList

/-- A section for each stage. -/
def prettyLines (l : PlanListing) : List String :=
  titled ("Migration plan (" ++ counted l.stages.length "stage" ++ ")") ++
    if l.stages.isEmpty then ["(no source files)"]
    else l.stages.zipIdx.flatMap fun (stage, i) =>
      ["", "Stage " ++ toString i ++ " (" ++ counted stage.length "file" ++ "):"] ++
        stage.flatMap l.fileLines

def StagedFile.toJson (s : StagedFile) : Json :=
  .ofMembers [("file", .ofText s.file), ("stage", .ofNat s.stage)]

/-- Explanations are left out when there are none. -/
def toJson (l : PlanListing) : Json :=
  let stages := ("stages", Json.array (l.stages.map .ofTexts))
  if l.explanations.isEmpty then .ofMembers [stages]
  else
    let explanations := l.explanations.map fun (file, targets) =>
      (file, Json.array (targets.map StagedFile.toJson))
    .ofMembers [stages, ("explanations", .ofMembers explanations)]

end PlanListing

end IncludeGraph.Output
