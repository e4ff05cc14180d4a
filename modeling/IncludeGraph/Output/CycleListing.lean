import IncludeGraph.Json.Printer
import IncludeGraph.Output.Layout

/-!
# Listing cycles

Cycles are listed one on a line, as numbered sections, or as JSON.
-/

namespace IncludeGraph.Output.CycleListing

/-- One line for each cycle. -/
def textLines (cycles : List (List String)) : List String :=
  cycles.map fun cycle => "cycle  " ++ " ".intercalate cycle

/-- A numbered section for each cycle. -/
def prettyLines (cycles : List (List String)) : List String :=
  if cycles.isEmpty then ["No include cycles found."]
  else
    titled ("Include cycles (" ++ toString cycles.length ++ ")") ++
      cycles.zipIdx.flatMap fun (cycle, i) =>
        ["", "Cycle " ++ toString (i + 1) ++ " (" ++ toString cycle.length ++ " files):"] ++
          cycle.map ("  - " ++ ·)

def toJson (cycles : List (List String)) : Json :=
  .ofMembers [("cycles", .array (cycles.map .ofTexts))]

end IncludeGraph.Output.CycleListing
