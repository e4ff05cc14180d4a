import IncludeGraph.Config
import IncludeGraph.FileTree
import IncludeGraph.Ignore.Rule
import IncludeGraph.Text.Order

/-!
# Finding source files

`discover` walks the directories below a root and finds the files with one of the
configured extensions.  Patterns of the configuration exclude files and whole
directories; if the configuration says so, ignore files and hidden names do, too.
Links are not followed, except for the root.
-/

namespace IncludeGraph

open Ignore

/-- A file below the root of a walk. -/
structure FoundFile where
  /-- The names of the directories between the root and the file. -/
  directories : List String
  name : String
  /-- The bytes of the file, unless it cannot be read. -/
  content : Option ByteArray

namespace FoundFile

def segments (file : FoundFile) : List String := file.directories ++ [file.name]

/-- The path of the file in the spelling of the root. -/
def path (file : FoundFile) (root : String) : String :=
  file.segments.foldl Path.join root

def hasExtension (file : FoundFile) (isKind : String → Bool) : Bool :=
  (Path.extension? file.name).any isKind

end FoundFile

/-- Why a tree cannot be walked. -/
inductive DiscoveryError where
  | notDirectory (root : String)
  | invalidExclude (pattern : String) (error : Glob.GlobError)
deriving DecidableEq, Repr

namespace DiscoveryError

def message : DiscoveryError → String
  | notDirectory root => "source root " ++ root ++ " is not a directory"
  | invalidExclude pattern _ => "invalid exclude glob '" ++ pattern ++ "'"

/-- What lies behind the failure, if more is known than the message says. -/
def cause? : DiscoveryError → Option String
  | notDirectory _ => none
  | invalidExclude pattern error =>
    let line := String.ofList (Rule.trimLine ('!' :: pattern.toList))
    some ("error parsing glob '" ++ line ++ "': " ++ error.message)

end DiscoveryError

namespace Discovery

/-- The rules that apply below one directory. -/
structure Level where
  /-- The spelling of the directory. -/
  directory : List Char
  /-- The directory lies above the root of the walk and is spelled from the top of
  the file tree. -/
  aboveRoot : Bool
  /-- Rules of `.ignore`. -/
  ignore : List Rule
  /-- Rules of `.gitignore`. -/
  gitignore : List Rule
  /-- Rules of `.git/info/exclude`. -/
  exclude : List Rule

/-- The rules of the ignore file under a path, seen from a directory. -/
def rulesAt (tree : FileTree) (directory : List String) (path : String) : List Rule :=
  match ({ tree with current := directory } : FileTree).read path with
  | .ok content => rulesOf content.toList
  | .error _ => []

def Level.load (tree : FileTree) (place : List String) (directory : List Char)
    (aboveRoot : Bool) : Level where
  directory := directory
  aboveRoot := aboveRoot
  ignore := rulesAt tree place ".ignore"
  gitignore := rulesAt tree place ".gitignore"
  exclude := rulesAt tree place ".git/info/exclude"

/-- The spelling of a place from the top of the file tree. -/
def absolutePath (place : List String) : List Char := place.flatMap fun name => '/' :: name.toList

/-- The levels above a place, the nearest one first.  The first argument is the
reversed place. -/
def levelsAbove (tree : FileTree) : List String → List Level
  | [] => []
  | _ :: above =>
    let place := above.reverse
    let directory := if place.isEmpty then ['/'] else absolutePath place
    Level.load tree place directory true :: levelsAbove tree above

/-- What the ignore files say about a path.  The kinds of ignore files come in the
order of their weight, and for each kind the nearest directory comes first. -/
def ignoreVerdict (levels : List Level) (path fromTop : List Char) (isDirectory : Bool) :
    Option Verdict :=
  let verdictBy (rules : Level → List Rule) := levels.findSome? fun level =>
    verdictOf (rules level)
      (below level.directory (if level.aboveRoot then fromTop else dropHere path)) isDirectory
  verdictBy (·.ignore) <|> verdictBy (·.gitignore) <|> verdictBy (·.exclude)

/-- What stays the same during a walk. -/
structure Walk where
  tree : FileTree
  root : String
  /-- The place that the root leads to. -/
  place : List String
  /-- Rules that make an exception of what the configuration excludes. -/
  excludes : List Rule
  respectGitignore : Bool

namespace Walk

/-- The spelling of a path below the root, without `./` at its start. -/
def spelling (walk : Walk) (segments : List String) : List Char :=
  dropHere (segments.foldl Path.join walk.root).toList

/-- An entry below the root is left out, and a directory with all that it holds. -/
def skips (walk : Walk) (levels : List Level) (segments : List String) (name : String)
    (isDirectory : Bool) : Bool :=
  let path := walk.spelling segments
  let excluded := verdictOf walk.excludes
    (below (dropHere walk.root.toList) (dropHere path)) isDirectory
  if excluded.isSome then true
  else if walk.respectGitignore then
    match ignoreVerdict levels path (absolutePath (walk.place ++ segments)) isDirectory with
    | some verdict => verdict == .ignored
    | none => Path.isHidden name
  else false

/-- The levels below the root, with that of a directory in front. -/
def enter (walk : Walk) (levels : List Level) (segments : List String) : List Level :=
  if walk.respectGitignore then
    Level.load walk.tree (walk.place ++ segments) (walk.spelling segments) false :: levels
  else levels

mutual

def filesOf (walk : Walk) (levels : List Level) (directories : List String) (name : String) :
    Entry → List FoundFile
  | .file content =>
    if walk.skips levels (directories ++ [name]) name false then []
    else [⟨directories, name, content⟩]
  | .link _ => []
  | .directory entries =>
    let segments := directories ++ [name]
    if walk.skips levels segments name true then []
    else filesIn walk (walk.enter levels segments) segments entries

def filesIn (walk : Walk) (levels : List Level) (directories : List String) :
    List (String × Entry) → List FoundFile
  | [] => []
  | (name, entry) :: entries =>
    filesOf walk levels directories name entry ++ filesIn walk levels directories entries

end

end Walk

/-- The rules for the excluded patterns.  The first invalid one is an error. -/
def excludeRules (patterns : List String) : Except DiscoveryError (List Rule) := do
  let rules ← patterns.mapM fun pattern =>
    (Rule.ofLine? false ('!' :: pattern.toList)).mapError (.invalidExclude pattern)
  return rules.filterMap id

/-- A lone minus sign as the root stands for the standard input, which holds no
files. -/
def isStandardInput (root : String) : Bool :=
  match Path.segments root with
  | "-" :: rest => rest.all fun segment => segment = "" || segment = "."
  | _ => false

end Discovery

open Discovery in
/-- The files below a root that have one of the configured extensions, ordered by
their paths. -/
def discover (tree : FileTree) (root : String) (config : CollectConfig) :
    Except DiscoveryError (List FoundFile) := do
  match tree.resolve root with
  | .error _ => throw (.notDirectory root)
  | .ok place =>
    match tree.top.at? place with
    | some (.directory entries) =>
      let excludes ← excludeRules config.exclude
      if isStandardInput root then return []
      let walk : Walk := ⟨tree, root, place, excludes, config.respectGitignore⟩
      let above := if config.respectGitignore then levelsAbove tree place.reverse else []
      let found := walk.filesIn (walk.enter above []) [] entries
      let sources := found.filter fun file => file.hasExtension config.isSourceExtension
      return sources.mergeSort fun a b => Text.listLe a.segments b.segments
    | _ => throw (.notDirectory root)

end IncludeGraph
