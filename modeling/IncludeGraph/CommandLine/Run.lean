import IncludeGraph.Collection
import IncludeGraph.CommandLine.Invocation
import IncludeGraph.Config.Load
import IncludeGraph.Output.Failure
import IncludeGraph.Output.Notice
import IncludeGraph.Output.ReportListing

/-!
# Running commands

`run` says what a command line does: what it prints, which file it writes, and
with which code it ends.
-/

namespace IncludeGraph.CommandLine

open Output

structure Outcome where
  exitCode : Nat
  output : String
  errors : String
  /-- The path and the text of the file that the run writes. -/
  written : Option (String × String)
deriving DecidableEq, Repr

structure RunFailure where
  notice : Notice
  message : String
  /-- What lies behind the failure, the outermost cause first. -/
  causes : List String

namespace RunFailure

def ofConfigError (e : ConfigError) : RunFailure where
  notice := .ofClass (Failure.summary e.message [e.cause]) .configParse
  message := e.message
  causes := [e.cause]

def ofTreeError (root : String) (e : TreeError) : RunFailure :=
  let message := "failed to analyze " ++ root
  match e with
  | .discovery e =>
    let causes := e.message :: e.cause?.toList
    ⟨.ofClass (Failure.summary message causes) .sourceWalk, message, causes⟩
  | .analysis e => ⟨.ofAnalysisError e, message, [e.message]⟩

def ofWriteError (path : String) (e : PathError) : RunFailure :=
  let message := "failed to write report to " ++ path
  ⟨.plain (Failure.summary message [e.message]), message, [e.message]⟩

end RunFailure

def render (mode : Mode) (json : Json) (textLines prettyLines : List String) : String :=
  match mode with
  | .json => ofLines [json.pretty]
  | .text => ofLines textLines
  | .pretty => ofLines prettyLines

def renderReport (mode : Mode) (r : Report) : String :=
  render mode r.toJson (ReportListing.textLines r) (ReportListing.prettyLines r)

def renderReceipt (mode : Mode) (receipt : ReportListing.Receipt) : String :=
  render mode receipt.toJson receipt.textLines receipt.prettyLines

def renderCycles (mode : Mode) (cycles : List (List String)) : String :=
  render mode (CycleListing.toJson cycles) (CycleListing.textLines cycles)
    (CycleListing.prettyLines cycles)

def renderPlan (mode : Mode) (listing : PlanListing) : String :=
  render mode listing.toJson listing.textLines listing.prettyLines

def renderNotice (mode : Mode) (notice : Notice) : String :=
  match mode with
  | .json => ofLines [notice.toErrorJson.pretty]
  | _ => ofLines notice.textLines

def reportOf (tree : FileTree) (invocation : Invocation) : Except RunFailure Report := do
  let config ← (Config.load tree invocation.root).mapError .ofConfigError
  (analyzeTree tree invocation.root (invocation.changes.apply config)).mapError
    (.ofTreeError invocation.root)

/-- Runs a command.  The results are the output and the file to write. -/
def execute (tree : FileTree) (mode : Mode) (invocation : Invocation) :
    Except RunFailure (String × Option (String × String)) := do
  let report ← reportOf tree invocation
  match invocation.command with
  | .cycles => return (renderCycles mode report.cycles, none)
  | .plan explain => return (renderPlan mode (.ofReport report explain), none)
  | .analyze none => return (renderReport mode report, none)
  | .analyze (some path) =>
    let text := ofLines [report.toText]
    let _ ← (tree.write path text.toUTF8).mapError (.ofWriteError path)
    return (renderReceipt mode (.ofReport path report), some (path, text))

/-- What surrounds a run. -/
structure Surroundings where
  tree : FileTree
  /-- The value of the environment variable `FORMAT`. -/
  format : Option String
  /-- The output goes to a terminal. -/
  terminal : Bool

/-- The mode of an invocation: the one that the user chose, then the one that the
environment names in letters of any case, then the one that suits the output. -/
def modeOf (surroundings : Surroundings) (invocation : Invocation) : Mode :=
  let named := surroundings.format.bind fun name =>
    Mode.ofName? (String.ofList (name.toList.map Char.toLower))
  (invocation.mode <|> named).getD (if surroundings.terminal then .pretty else .text)

def versionText : String := "strata-cli 0.3.0"

/-- The outcome of a command line that runs no command.  The text of the help and what is
said about a command line that is not understood are left out. -/
def Refusal.outcome : Refusal → Outcome
  | help => ⟨0, "", "", none⟩
  | version => ⟨0, ofLines [versionText], "", none⟩
  | usage => ⟨2, "", "", none⟩

def run (surroundings : Surroundings) (words : List String) : Outcome :=
  match Invocation.parse words with
  | .error refusal => refusal.outcome
  | .ok invocation =>
    let mode := modeOf surroundings invocation
    match execute surroundings.tree mode invocation with
    | .ok (output, written) => ⟨0, output, "", written⟩
    | .error failure =>
      ⟨1, "", renderNotice mode failure.notice ++ Failure.text failure.message failure.causes, none⟩

end IncludeGraph.CommandLine
