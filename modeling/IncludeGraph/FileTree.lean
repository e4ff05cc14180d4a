import IncludeGraph.Path

/-!
# File trees

A file tree holds directories, files and links.  `FileTree.resolve` finds the place
that a path leads to, and `FileTree.write` puts a file there.
-/

namespace IncludeGraph

/-- What a directory lists under a name. -/
inductive Entry where
  /-- A file; without content, it may be neither read nor written. -/
  | file (content : Option ByteArray)
  /-- A link to the entry that another path leads to. -/
  | link (target : String)
  | directory (entries : List (String × Entry))

instance : Inhabited Entry := ⟨.directory []⟩

/-- Why a path leads to nothing that can be used. -/
inductive PathError where
  | notFound
  | notDirectory
  | isDirectory
  | tooManyLinks
  | denied
deriving DecidableEq, Repr

def PathError.message : PathError → String
  | notFound => "No such file or directory (os error 2)"
  | notDirectory => "Not a directory (os error 20)"
  | isDirectory => "Is a directory (os error 21)"
  | tooManyLinks => "Too many levels of symbolic links (os error 40)"
  | denied => "Permission denied (os error 13)"

namespace Entry

def child? (entry : Entry) (name : String) : Option Entry :=
  match entry with
  | directory entries => entries.lookup name
  | _ => none

/-- The entry at a place, which is the list of the names on the way to it. -/
def at? (entry : Entry) (place : List String) : Option Entry := place.foldlM child? entry

def isDirectory : Entry → Bool
  | directory _ => true
  | _ => false

/-- Replaces what a directory lists under a name, or adds it. -/
def replace (name : String) (entry : Entry) : List (String × Entry) → List (String × Entry)
  | [] => [(name, entry)]
  | old :: entries =>
    if old.1 = name then (name, entry) :: entries else old :: replace name entry entries

/-- Puts an entry at a place.  Missing directories on the way are made. -/
def put (new : Entry) : (place : List String) → Entry → Entry
  | [], _ => new
  | name :: place, directory entries =>
    directory (replace name (put new place ((entries.lookup name).getD (directory []))) entries)
  | _ :: _, entry => entry

end Entry

/-- All entries below the top directory, and the place from which relative paths
start. -/
structure FileTree where
  top : Entry
  current : List String

namespace FileTree

def maxLinks : Nat := 40

def start (place : List String) (path : String) : List String :=
  if Path.isAbsolute path then [] else place

/-- Goes from the place of a directory along the segments of a path.  All links are
followed; `links` is the number of those that may still come. -/
def follow (top : Entry) (links : Nat) (place : List String) :
    List String → Except PathError (List String)
  | [] => .ok place
  | segment :: segments =>
    match top.at? place with
    | some (.directory entries) =>
      if segment = "" ∨ segment = "." then follow top links place segments
      else if segment = ".." then follow top links place.dropLast segments
      else
        match entries.lookup segment with
        | none => .error .notFound
        | some (.link target) =>
          match links with
          | 0 => .error .tooManyLinks
          | links + 1 => follow top links (start place target) (Path.segments target ++ segments)
        | some _ => follow top links (place ++ [segment]) segments
    | _ => .error .notDirectory
termination_by segments => (links, segments.length)

def resolve (tree : FileTree) (path : String) : Except PathError (List String) :=
  if path.isEmpty then .error .notFound
  else follow tree.top maxLinks (start tree.current path) (Path.segments path)

def find (tree : FileTree) (path : String) : Except PathError Entry := do
  match tree.top.at? (← tree.resolve path) with
  | some entry => return entry
  | none => throw .notFound

def has (tree : FileTree) (path : String) : Bool := (tree.find path).toOption.isSome

def read (tree : FileTree) (path : String) : Except PathError ByteArray := do
  match ← tree.find path with
  | .file (some content) => return content
  | .file none => throw .denied
  | _ => throw .isDirectory

/-- The place of the file that is written under a path.  The file need not exist,
but its directory must. -/
def fileToWrite (top : Entry) (links : Nat) (place segments : List String) :
    Except PathError (List String) := do
  let named := (segments.reverse.dropWhile (· == "")).reverse
  match named.getLast? with
  | none => throw .isDirectory
  | some name =>
    let directory ← follow top maxLinks place named.dropLast
    match top.at? directory with
    | some (.directory entries) =>
      if named.length < segments.length ∨ name = "." ∨ name = ".." then throw .isDirectory
      match entries.lookup name with
      | some (.directory _) => throw .isDirectory
      | some (.file none) => throw .denied
      | some (.link target) =>
        match links with
        | 0 => throw .tooManyLinks
        | links + 1 => fileToWrite top links (start directory target) (Path.segments target)
      | _ => return directory ++ [name]
    | _ => throw .notDirectory

def write (tree : FileTree) (path : String) (content : ByteArray) : Except PathError FileTree := do
  let place ← fileToWrite tree.top maxLinks (start tree.current path) (Path.segments path)
  return { tree with top := Entry.put (.file (some content)) place tree.top }

end FileTree

end IncludeGraph
