/-!
# Lines

A line ends at a line feed, which is not part of it, nor is one carriage return
before the line feed.  What follows the last line feed is a line too, unless it is
empty; it keeps a carriage return at its end.
-/

namespace IncludeGraph.Text

/-- Leaves out one carriage return at the end of a line. -/
def dropReturn {α : Type} [BEq α] (ret : α) (line : List α) : List α :=
  if line.getLast? == some ret then line.dropLast else line

/-- The lines of a sequence in which `feed` stands for a line feed and `ret` for a
carriage return. -/
def splitLines {α : Type} [BEq α] (feed ret : α) (text : List α) : List (List α) :=
  let pieces := text.splitOn feed
  pieces.dropLast.map (dropReturn ret) ++ (pieces.getLast?.filter (!·.isEmpty)).toList

def lines (text : List Char) : List (List Char) := splitLines '\n' '\r' text

end IncludeGraph.Text
