import IncludeGraph.Output.Layout

/-!
# Reports of failures

A failure is reported by its message and below it by what lies behind it: a single
cause is indented, and several causes are numbered.
-/

namespace IncludeGraph.Output.Failure

/-- A text with a mark before its first line and an indentation of the same width
before its other lines. -/
def hanging (mark : String) (text : String) : String :=
  let lines := (text.toList.splitOn '\n').map String.ofList
  let indentation := String.ofList (List.replicate mark.length ' ')
  mark ++ ("\n" ++ indentation).intercalate lines

def text (message : String) (causes : List String) : String :=
  let listed := match causes with
    | [] => []
    | [cause] => ["", "Caused by:", hanging "    " cause]
    | causes => ["", "Caused by:"] ++
      causes.zipIdx.map fun (cause, i) => hanging ("    " ++ toString i ++ ": ") cause
  ofLines (("Error: " ++ message) :: listed)

def summary (message : String) (causes : List String) : String :=
  ": ".intercalate (message :: causes)

end IncludeGraph.Output.Failure
