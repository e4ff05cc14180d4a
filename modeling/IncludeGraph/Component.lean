import IncludeGraph.Text.Order
import IncludeGraph.Text.Quoted

/-!
# Components

A component is a group of files that have to be handled together because each of
them reaches all others through includes.  Most components are single files.
-/

namespace IncludeGraph

/-- Whether a file that includes itself, but is in no larger cycle, is reported. -/
inductive SelfLoopPolicy where
  | ignore
  | report
deriving DecidableEq, Repr

def SelfLoopPolicy.ofName? : String → Option SelfLoopPolicy
  | "ignore" => some .ignore
  | "report" => some .report
  | _ => none

def SelfLoopPolicy.name : SelfLoopPolicy → String
  | ignore => "ignore"
  | report => "report"

/-- The files of one component. -/
structure Component where
  members : List String
  /-- The only file of the component includes itself. -/
  selfLoop : Bool
deriving DecidableEq, Repr

namespace Component

def isCycle (c : Component) : Bool := 1 < c.members.length

def isReported (c : Component) (policy : SelfLoopPolicy) : Bool :=
  c.isCycle || (c.selfLoop && policy == .report)

/-- The first member, which is the smallest one where members are sorted. -/
def representative (c : Component) : String := c.members.headD ""

/-- The label of a group: its members, quoted and separated by commas, in
brackets. -/
def groupLabel (members : List String) : List Char :=
  "SCC[".toList ++ List.intercalate [','] (members.map fun name => Text.quote name.toList) ++ [']']

/-- A group is labelled with all its members, a single file with its name. -/
def label (c : Component) : String :=
  if c.isCycle then String.ofList (groupLabel c.members) else c.representative

/-- Reads the members of a group back from quoted names separated by commas and
closed by a bracket; `fuel` bounds their number. -/
def readMembers : (fuel : Nat) → List Char → Option (List String)
  | 0, _ => none
  | fuel + 1, text =>
    match Text.unquote text with
    | some (name, [']']) => some [String.ofList name]
    | some (name, ',' :: rest) => (readMembers fuel rest).map (String.ofList name :: ·)
    | _ => none

def readGroupLabel : List Char → Option (List String)
  | 'S' :: 'C' :: 'C' :: '[' :: rest => readMembers rest.length rest
  | _ => none

end Component

/-- The member lists of the reported components, in lexicographic order. -/
def findCycles (components : List Component) (policy : SelfLoopPolicy) : List (List String) :=
  Text.sortNameLists ((components.filter (·.isReported policy)).map (·.members))

end IncludeGraph
