import IncludeGraph.Discovery
import IncludeGraph.IncludeDirective
import IncludeGraph.Report

/-!
# Collecting units

Every file that is found becomes a unit.  Its includes are the names in its include
directives, as far as they are names of headers that were found as well, so that a
collection never names a file that it lacks.  A file that cannot be read has none.
-/

namespace IncludeGraph

namespace Collection

def headers (config : CollectConfig) (files : List FoundFile) : Std.HashSet String :=
  Std.HashSet.ofList
    ((files.filter (·.hasExtension config.isHeaderExtension)).map (·.name))

def unitOf (headers : Std.HashSet String) (file : FoundFile) : SourceUnit where
  name := file.name
  includes :=
    match file.content with
    | some content => IncludeDirective.scanBytes headers content.toList
    | none => []

def units (config : CollectConfig) (files : List FoundFile) : List SourceUnit :=
  files.map (unitOf (headers config files))

end Collection

/-- The units of the files below a root. -/
def collect (tree : FileTree) (root : String) (config : CollectConfig) :
    Except DiscoveryError (List SourceUnit) := do
  return Collection.units config (← discover tree root config)

/-- Why a tree cannot be analyzed. -/
inductive TreeError where
  | discovery (error : DiscoveryError)
  | analysis (error : AnalysisError)
deriving DecidableEq, Repr

def analyzeTree (tree : FileTree) (root : String) (config : Config) : Except TreeError Report := do
  let units ← (collect tree root config.collect).mapError .discovery
  (analyze units config.selfLoops).mapError .analysis

end IncludeGraph
