/-!
# TOML values

The values that a TOML document can hold.  Numbers with a fraction or an exponent
and dates are kept as they are written.
-/

namespace IncludeGraph

inductive Toml where
  | string (value : String)
  | integer (value : Int)
  /-- A binary64 number by the characters of its literal. -/
  | float (literal : String)
  | bool (value : Bool)
  /-- A date, a time or both by the characters of its literal. -/
  | dateTime (literal : String)
  | array (items : List Toml)
  | table (entries : List (String × Toml))

end IncludeGraph
