/-!
# Paths

A path is a text whose segments are separated by slashes.  Paths keep the spelling
that the user gave them.
-/

namespace IncludeGraph.Path

/-- The pieces of a path between its slashes; some may be empty. -/
def segments (path : String) : List String := (path.toList.splitOn '/').map String.ofList

def isAbsolute (path : String) : Bool := path.toList.head? == some '/'

def join (directory path : String) : String :=
  if directory.isEmpty || directory.toList.getLast? == some '/' then directory ++ path
  else directory ++ "/" ++ path

/-- What follows the last point of a file name, unless nothing stands before that
point. -/
def extension? (name : String) : Option String :=
  let reversed := name.toList.reverse
  let extension := reversed.takeWhile (· != '.')
  if reversed.length ≤ extension.length + 1 then none
  else some (String.ofList extension.reverse)

def isHidden (name : String) : Bool := name.toList.head? == some '.'

end IncludeGraph.Path
