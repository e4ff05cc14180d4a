import IncludeGraph.Component

/-!
# Configuration

Which files of a tree are collected, which of them can be included, and how files
that include themselves are reported.  Extensions are compared without regard to
the case of ASCII letters.
-/

namespace IncludeGraph

/-- Which files of a tree are collected. -/
structure CollectConfig where
  /-- Extensions of the files that are collected, without the point. -/
  extensions : List String
  /-- Extensions of the files that can be included. -/
  headerExtensions : List String
  /-- Patterns of paths to skip. -/
  exclude : List String
  /-- Hidden files and the files that ignore files name are skipped. -/
  respectGitignore : Bool
deriving DecidableEq, Repr

namespace CollectConfig

def default : CollectConfig where
  extensions := ["c", "h", "cc", "cpp", "cxx", "hh", "hpp", "hxx"]
  headerExtensions := ["h", "hh", "hpp", "hxx"]
  exclude := []
  respectGitignore := true

/-- Two texts are equal up to the case of ASCII letters. -/
def sameIgnoringCase (a b : String) : Bool :=
  a.toList.map Char.toLower == b.toList.map Char.toLower

def isSourceExtension (config : CollectConfig) (extension : String) : Bool :=
  config.extensions.any (sameIgnoringCase extension)

/-- Files with this extension can be included. -/
def isHeaderExtension (config : CollectConfig) (extension : String) : Bool :=
  config.headerExtensions.any (sameIgnoringCase extension)

end CollectConfig

structure Config where
  collect : CollectConfig
  selfLoops : SelfLoopPolicy
deriving DecidableEq, Repr

namespace Config

def default : Config := ⟨.default, .ignore⟩

end Config

/-- What the user asks for beyond the configuration of a tree. -/
structure ConfigChanges where
  /-- Extensions that replace the configured ones, if there are any. -/
  extensions : List String
  /-- Further patterns of paths to skip. -/
  exclude : List String
  /-- Ignore files are not respected. -/
  noGitignore : Bool
  /-- Files that include themselves are reported. -/
  reportSelfLoops : Bool
deriving DecidableEq, Repr

namespace ConfigChanges

/-- An extension without the points before it. -/
def bareExtension (extension : String) : String :=
  String.ofList (extension.toList.dropWhile (· == '.'))

def apply (changes : ConfigChanges) (config : Config) : Config where
  collect := {
    extensions :=
      if changes.extensions.isEmpty then config.collect.extensions
      else changes.extensions.map bareExtension
    headerExtensions := config.collect.headerExtensions
    exclude := config.collect.exclude ++ changes.exclude
    respectGitignore := config.collect.respectGitignore && !changes.noGitignore
  }
  selfLoops := if changes.reportSelfLoops then .report else config.selfLoops

end ConfigChanges

end IncludeGraph
