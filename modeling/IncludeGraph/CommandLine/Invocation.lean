import IncludeGraph.CommandLine.Options
import IncludeGraph.Config
import IncludeGraph.Output.Layout

/-!
# Invocations

A command line names a command.  Some options may stand before the command or after
it, and the others belong to it; at most one operand names the root of the tree.
-/

namespace IncludeGraph.CommandLine

inductive Command where
  /-- Report everything, or write the report to a file. -/
  | analyze (output : Option String)
  | cycles
  | plan (explain : Bool)
deriving DecidableEq, Repr

structure Invocation where
  command : Command
  root : String
  changes : ConfigChanges
  /-- The mode of output, if the user chose one. -/
  mode : Option Output.Mode
deriving DecidableEq, Repr

/-- Options that may stand before and after the command. -/
def commonSpecs : List OptionSpec := [
  ⟨"verbose", some 'v', .flag⟩,
  ⟨"format", none, .value fun name => (Output.Mode.ofName? name).isSome⟩,
  ⟨"json", none, .flag⟩,
  ⟨"help", some 'h', .stop .help⟩]

def leadingSpecs : List OptionSpec := commonSpecs ++ [⟨"version", some 'V', .stop .version⟩]

def sourceSpecs : List OptionSpec := commonSpecs ++ [
  ⟨"ext", none, .values⟩,
  ⟨"exclude", none, .values⟩,
  ⟨"no-gitignore", none, .flag⟩,
  ⟨"self-loops", none, .flag⟩]

def isPath (path : String) : Bool := !path.isEmpty

/-- The options of a command and what makes a command of them. -/
def commandNamed? : String → Option (List OptionSpec × (Given → Command))
  | "analyze" =>
    some ([⟨"output", some 'o', .value isPath⟩],
      fun given => .analyze (given.values "output").head?)
  | "cycles" => some ([], fun _ => .cycles)
  | "plan" => some ([⟨"explain", none, .flag⟩], fun given => .plan (given.has "explain"))
  | _ => none

def rootOf : List String → Except Refusal (Option String)
  | [] => .ok none
  | [root] => if isPath root then .ok (some root) else .error .usage
  | _ => .error .usage

/-- Reads what follows the name of a command.  The operand may stand between
options. -/
def readArguments (specs : List OptionSpec) (words : List String) :
    Except Refusal (Given × Option String) := do
  let (given, rest) ← readOptions specs [] words
  match rest with
  | [] => return (given, none)
  | "--" :: operands => return (given, ← rootOf operands)
  | root :: rest =>
    let root ← rootOf [root]
    let (given, rest) ← readOptions specs given rest
    match rest with
    | [] => return (given, root)
    | ["--"] => return (given, root)
    | _ => throw .usage

/-- The mode that options choose; `format` weighs more than `json`, and options
after the command weigh more than those before it. -/
def chosenMode (leading given : Given) : Option Output.Mode :=
  match (given.values "format" ++ leading.values "format").head? with
  | some name => Output.Mode.ofName? name
  | none => if given.has "json" || leading.has "json" then some .json else none

def Invocation.parse (words : List String) : Except Refusal Invocation := do
  let (leading, rest) ← readOptions leadingSpecs [] words
  match rest with
  | [] => throw .usage
  | "help" :: topics =>
    match topics with
    | [] => throw .help
    | [topic] =>
      if topic == "help" || (commandNamed? topic).isSome then throw .help else throw .usage
    | _ => throw .usage
  | name :: words =>
    match commandNamed? name with
    | none => throw .usage
    | some (specs, commandOf) =>
      let (given, root) ← readArguments (sourceSpecs ++ specs) words
      return {
        command := commandOf given
        root := root.getD "."
        changes := {
          extensions := given.values "ext"
          exclude := given.values "exclude"
          noGitignore := given.has "no-gitignore"
          reportSelfLoops := given.has "self-loops"
        }
        mode := chosenMode leading given
      }

end IncludeGraph.CommandLine
