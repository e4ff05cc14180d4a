import IncludeGraph.Config.Decode
import IncludeGraph.FileTree
import IncludeGraph.Text.Utf8

/-!
# Configuration files

The configuration of a tree stands in the file `strata.toml` at its root.  Without
that file the default configuration applies.
-/

namespace IncludeGraph

inductive ConfigError where
  | unreadable (path : String) (error : PathError)
  | notUtf8 (path : String)
  | malformed (path : String)
deriving DecidableEq, Repr

namespace ConfigError

def message : ConfigError → String
  | unreadable path _ => "Failed to read " ++ path
  | notUtf8 path => "Failed to read " ++ path
  | malformed path => "Failed to parse " ++ path

def cause : ConfigError → String
  | unreadable _ error => error.message
  | notUtf8 _ => "stream did not contain valid UTF-8"
  | malformed _ => "TOML parse error"

end ConfigError

namespace Config

def fileName : String := "strata.toml"

/-- Reads the configuration of the tree below a root. -/
def load (tree : FileTree) (root : String) : Except ConfigError Config := do
  let path := Path.join root fileName
  if !tree.has path then return default
  let content ← (tree.read path).mapError (.unreadable path)
  match Utf8.decode? content.toList with
  | none => throw (.notUtf8 path)
  | some text =>
    match ofTomlText? text with
    | some config => return config
    | none => throw (.malformed path)

end Config

end IncludeGraph
