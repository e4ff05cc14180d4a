/-!
# Failures of an analysis

An analysis fails either because an include names no known file or because one
of its own checks finds a broken rule.  Every failure belongs to a class with a
stable code and a hint for the reader of the message.
-/

namespace IncludeGraph

/-- The broken rules that the checks of the analysis can find. -/
inductive Violation where
  /-- A file is listed by two components, or twice by one. -/
  | sharedFile (file : String)
  /-- The components list a different number of files than the graph has. -/
  | coverage (covered files : Nat)
  /-- The file of a graph node is in no component. -/
  | unassignedNode (node : Nat)
  /-- The components depend on each other in a circle. -/
  | condensedCycle
  /-- No component is ready although some have no stage yet. -/
  | stalled (unsettled total : Nat)
  /-- A plan lists a file twice. -/
  | repeatedFile (file : String)
  /-- A plan leaves out a file. -/
  | missingFile (file : String)
  /-- A plan lists names that the graph does not have. -/
  | foreignFiles
  /-- Two files of one component have different stages. -/
  | splitCycle (source target : String)
  /-- A file does not come after a file that it depends on. -/
  | lateDependency (source : String) (sourceStage : Nat) (target : String) (targetStage : Nat)
  /-- A broken rule in the words of whoever found it. -/
  | described (text : String)
deriving DecidableEq, Repr

def Violation.message : Violation → String
  | sharedFile file => "file '" ++ file ++ "' belongs to more than one component"
  | coverage covered files =>
    "components cover " ++ toString covered ++ " files but the graph has " ++ toString files
  | unassignedNode node => "graph node #" ++ toString node ++ " has no component"
  | condensedCycle => "condensed graph contains a cycle"
  | stalled unsettled total =>
    "staging stalled with " ++ toString unsettled ++ " of " ++ toString total ++
      " components unsettled"
  | repeatedFile file => "'" ++ file ++ "' appears in more than one stage"
  | missingFile file => "'" ++ file ++ "' is missing from the plan"
  | foreignFiles => "plan contains files outside the graph"
  | splitCycle source target =>
    "cycle-mates '" ++ source ++ "' and '" ++ target ++ "' are split across stages"
  | lateDependency source sourceStage target targetStage =>
    "'" ++ source ++ "' (stage " ++ toString sourceStage ++ ") depends on '" ++ target ++
      "' (stage " ++ toString targetStage ++ ")"
  | described text => text

inductive AnalysisError where
  /-- The file `source` includes `target`, which is no file of the project. -/
  | unknownDependency (source target : String)
  /-- A check of the analysis itself found a broken rule. -/
  | invariantViolation (violation : Violation)
deriving DecidableEq, Repr

def AnalysisError.message : AnalysisError → String
  | unknownDependency source target =>
    "'" ++ source ++ "' depends on '" ++ target ++ "', which is not a known project file"
  | invariantViolation violation => "internal invariant violated: " ++ violation.message

/-- Classes of failures, each with a code that scripts can rely on. -/
inductive ErrorClass where
  | configParse
  | sourceWalk
  | unknownDependency
  | invariantViolation
deriving DecidableEq, Repr

def ErrorClass.code : ErrorClass → String
  | configParse => "E1001"
  | sourceWalk => "E1002"
  | unknownDependency => "E2001"
  | invariantViolation => "E9001"

def ErrorClass.hint : ErrorClass → String
  | configParse => "Fix syntax in strata.toml and retry."
  | sourceWalk => "Check that the root exists and the exclude globs are valid."
  | unknownDependency =>
    "Drop includes that do not name a project file before building the graph."
  | invariantViolation => "Report a bug with the input that triggered it."

def AnalysisError.errorClass : AnalysisError → ErrorClass
  | unknownDependency .. => .unknownDependency
  | invariantViolation .. => .invariantViolation

end IncludeGraph
