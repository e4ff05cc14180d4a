import Std.Data.HashSet

/-!
# First occurrences

`firstOccurrences` lists each element of a list once, at its first place.  File
names become graph nodes and include pairs become graph edges in this order.
-/

namespace IncludeGraph

variable {α : Type} [BEq α] [Hashable α]

/-- Appends to `kept` the elements of a list that are not in `seen`, each once,
in order of appearance. -/
def appendUnseen (seen : Std.HashSet α) (kept : Array α) : List α → Array α
  | [] => kept
  | x :: xs =>
    if seen.contains x then appendUnseen seen kept xs
    else appendUnseen (seen.insert x) (kept.push x) xs

/-- Elements of a list, each once, in order of first appearance. -/
def firstOccurrences (xs : List α) : List α :=
  (appendUnseen ∅ #[] xs).toList

end IncludeGraph
