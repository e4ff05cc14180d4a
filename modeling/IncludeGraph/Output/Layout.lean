/-!
# Lines of output

Output for people has headings with a rule below them and values in a column.
Widths count characters.
-/

namespace IncludeGraph.Output

/-- How results are written: for people, as compact text, or as JSON. -/
inductive Mode where
  | pretty
  | text
  | json
deriving DecidableEq, Repr

def Mode.ofName? : String → Option Mode
  | "pretty" => some .pretty
  | "text" => some .text
  | "json" => some .json
  | _ => none

def ofLines (lines : List String) : String := String.join (lines.map (· ++ "\n"))

def ruleWidth : Nat := 72

def keyWidth : Nat := 16

def rule : String := String.ofList (List.replicate ruleWidth '-')

def titled (heading : String) : List String := [heading, rule]

/-- A key with a colon, padded to the width of its column, and a value. -/
def keyValue (key value : String) : String :=
  let key := key ++ ":"
  key ++ String.ofList (List.replicate (keyWidth - key.length) ' ') ++ " " ++ value

/-- A count with its noun, which takes an `s` unless there is just one. -/
def counted (count : Nat) (noun : String) : String :=
  toString count ++ " " ++ noun ++ if count = 1 then "" else "s"

end IncludeGraph.Output
