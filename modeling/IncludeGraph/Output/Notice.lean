import IncludeGraph.Error
import IncludeGraph.Json.Printer

/-!
# Error notices

A notice tells the user about a failure: a message, and where there are any, a
suggestion and a code.
-/

namespace IncludeGraph.Output

/-- A failure as the user sees it. -/
structure Notice where
  message : String
  suggestion : Option String
  code : Option String
deriving DecidableEq, Repr

namespace Notice

def plain (message : String) : Notice := ⟨message, none, none⟩

def detailed (message suggestion code : String) : Notice := ⟨message, some suggestion, some code⟩

/-- The notice of a failure of a class. -/
def ofClass (message : String) (c : ErrorClass) : Notice := detailed message c.hint c.code

def ofAnalysisError (e : AnalysisError) : Notice := ofClass e.message e.errorClass

/-- The members of a notice as an object; parts that it lacks are left out. -/
def toJson (n : Notice) : Json :=
  .ofMembers <| [("message", .ofText n.message)] ++
    (n.suggestion.map fun text => ("suggestion", Json.ofText text)).toList ++
    (n.code.map fun text => ("error_code", Json.ofText text)).toList

def toErrorJson (n : Notice) : Json :=
  let parts := (n.code.map fun text => ("error_code", Json.ofText text)).toList ++
    [("message", .ofText n.message)] ++
    (n.suggestion.map fun text => ("suggestion", Json.ofText text)).toList
  .ofMembers [("error", .ofMembers parts)]

def textLines (n : Notice) : List String :=
  ("error: " ++ n.message) :: (n.suggestion.map ("  suggestion: " ++ ·)).toList

end Notice

end IncludeGraph.Output
