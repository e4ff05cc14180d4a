import Std.Data.HashMap
import IncludeGraph.Error

/-!
# Tables of files

A table gives each of its files one value, such as the component or the stage of
the file.  It is filled from groups of files; a file that occurs twice breaks a
rule, which the owner of the table names.
-/

namespace IncludeGraph

/-- One value for each of some files. -/
abbrev FileTable (α : Type) := Std.HashMap String α

namespace FileTable

variable {α : Type}

/-- Enters files that share a value; a file must not be entered before. -/
def enter (clash : String → Violation) (value : α) (table : FileTable α) :
    List String → Except AnalysisError (FileTable α)
  | [] => .ok table
  | file :: files =>
    if table.contains file then .error (.invariantViolation (clash file))
    else enter clash value (table.insert file value) files

/-- Enters groups of files in order, every file with the value of its group. -/
def ofGroups (clash : String → Violation) (groups : List (α × List String)) :
    Except AnalysisError (FileTable α) :=
  groups.foldlM (fun table group => enter clash group.1 table group.2) ∅

end FileTable

end IncludeGraph
