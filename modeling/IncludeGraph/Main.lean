import IncludeGraph.CommandLine.Run

/-!
# The program

`main` reads the part of the file system that a command line is about, runs the
command line on it, writes the file that the run asks for and prints its output.
-/

namespace IncludeGraph.CommandLine

/-- The place of a path, with the names that `..` takes back left out. -/
def lexicalPlace (current path : String) : List String :=
  let full := if Path.isAbsolute path then path else Path.join current path
  (Path.segments full).foldl (fun place segment =>
    if segment = "" ∨ segment = "." then place
    else if segment = ".." then place.dropLast
    else place ++ [segment]) []

/-- The places that have to be read below an entry of a directory, given those below
the directory.  Everything below a place is read; on the way to one, ignore files
are. -/
def placesBelow (places : List (List String)) (name : String) : List (List String) :=
  if places.contains [] || name = ".ignore" || name = ".gitignore" then [[]]
  else
    let further := places.filterMap fun place =>
      if place.head? = some name then some place.tail else none
    if name = ".git" then ["info", "exclude"] :: further else further

/-- Reads an entry of a directory as far as the places below it ask for.  A link
that leads nowhere becomes a link to itself, and a directory that cannot be listed an
empty one. -/
partial def readEntry (places : List (List String)) (entry : IO.FS.DirEntry) :
    IO (Option Entry) := do
  match (← entry.path.symlinkMetadata).type with
  | .file =>
    try return some (.file (some (← IO.FS.readBinFile entry.path)))
    catch _ => return some (.file none)
  | .symlink =>
    try return some (.link (← IO.FS.realPath entry.path).toString)
    catch _ => return some (.link entry.path.toString)
  | .dir =>
    let mut entries := #[]
    let children ← try entry.path.readDir catch _ => pure #[]
    for child in children do
      let below := placesBelow places child.fileName
      if !below.isEmpty then
        try
          if let some read ← readEntry below child then
            entries := entries.push (child.fileName, read)
        catch _ => pure ()
    return some (.directory entries.toList)
  | .other => return none

/-- The places that a path may lead to: the one that it spells, and the one that its
links lead to. -/
def placesAt (current path : String) : IO (List (List String)) := do
  let spelled := lexicalPlace current path
  try return [spelled, lexicalPlace current (← IO.FS.realPath path).toString]
  catch _ => return [spelled]

/-- The places on the way along a path, none of which is read as a whole. -/
def placesAlong (current path : String) : IO (List (List String)) := do
  let segments := Path.segments path
  let starts := (List.range segments.length).map fun i =>
    "/".intercalate (segments.take (i + 1))
  let places ← starts.mapM (placesAt current)
  return places.flatten.map (· ++ [""])

def placesOf (current : String) (invocation : Invocation) : IO (List (List String)) := do
  let written ← match invocation.command with
    | .analyze (some path) =>
      pure (lexicalPlace current path :: (← placesAlong current path))
    | _ => pure []
  return (← placesAt current invocation.root) ++ (← placesAlong current invocation.root) ++ written

def readTree (words : List String) : IO FileTree := do
  let current := (← IO.currentDir).toString
  let asked ← match Invocation.parse words with
    | .ok invocation => placesOf current invocation
    | .error _ => pure []
  let place := lexicalPlace current "."
  let top ← readEntry ((place ++ [""]) :: asked) { root := "/", fileName := "." }
  return ⟨top.getD (.directory []), place⟩

end IncludeGraph.CommandLine

open IncludeGraph CommandLine in
def main (words : List String) : IO UInt32 := do
  let surroundings : Surroundings := {
    tree := ← readTree words
    format := ← IO.getEnv "FORMAT"
    terminal := ← (← IO.getStdout).isTty
  }
  let outcome := run surroundings words
  if let some (path, text) := outcome.written then
    IO.FS.writeFile path text
  IO.print outcome.output
  IO.eprint outcome.errors
  return outcome.exitCode.toUInt32
