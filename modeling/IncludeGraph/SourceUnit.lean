/-!
# Source units

A source unit is one file, known by its base name, with the project headers that
it includes, in the order of its text.  Several units may have the same name.
-/

namespace IncludeGraph

/-- One file and the project headers that it includes, in source order. -/
structure SourceUnit where
  name : String
  includes : List String
deriving DecidableEq, Repr

/-- The pairs of an including and an included name, unit by unit and in include
order. -/
def includePairs (units : List SourceUnit) : List (String × String) :=
  units.flatMap fun unit => unit.includes.map fun target => (unit.name, target)

end IncludeGraph
