/-!
# Options

Words of a command line that start with a minus sign are options: `--name`,
`--name value`, `--name=value`, or a letter after a single minus sign, where several
letters and the value of the last one may stand together.  All other words are
operands, and so is everything after a lone `--`.
-/

namespace IncludeGraph.CommandLine

/-- Why a command line runs no command. -/
inductive Refusal where
  /-- The user asks for help. -/
  | help
  /-- The user asks for the version. -/
  | version
  /-- The command line is not understood. -/
  | usage
deriving DecidableEq, Repr

inductive OptionKind where
  | flag
  /-- The option has a value, which has to pass a test. -/
  | value (accepts : String → Bool)
  /-- The option has a value and may be given several times. -/
  | values
  /-- Nothing that follows the option counts. -/
  | stop (refusal : Refusal)

structure OptionSpec where
  name : String
  letter : Option Char
  kind : OptionKind

namespace OptionSpec

def takesValue (spec : OptionSpec) : Bool :=
  match spec.kind with
  | .value _ => true
  | .values => true
  | _ => false

end OptionSpec

/-- The options that have been given, with their values. -/
abbrev Given := List (String × String)

def Given.has (given : Given) (name : String) : Bool := given.any (·.1 == name)

def Given.values (given : Given) (name : String) : List String :=
  (given.filter (·.1 == name)).map (·.2)

/-- Enters an option.  Only options with several values may be repeated. -/
def Given.enter (given : Given) (spec : OptionSpec) (value : String) : Except Refusal Given :=
  match spec.kind with
  | .stop refusal => .error refusal
  | .values => .ok (given ++ [(spec.name, value)])
  | .flag => if given.has spec.name then .error .usage else .ok (given ++ [(spec.name, value)])
  | .value accepts =>
    if given.has spec.name || !accepts value then .error .usage
    else .ok (given ++ [(spec.name, value)])

/-- The word is an option; a lone minus sign is not. -/
def isOption (word : String) : Bool :=
  match word.toList with
  | '-' :: _ :: _ => true
  | _ => false

/-- Reads an option after its two minus signs.  The second result is the option if
its value is still to come. -/
def readLong (specs : List OptionSpec) (given : Given) (text : List Char) :
    Except Refusal (Given × Option OptionSpec) :=
  let name := text.takeWhile (· != '=')
  match specs.find? (·.name == String.ofList name) with
  | none => .error .usage
  | some spec =>
    if name.length < text.length then
      if spec.takesValue then
        (given.enter spec (String.ofList (text.drop (name.length + 1)))).map (·, none)
      else .error .usage
    else if spec.takesValue then .ok (given, some spec)
    else (given.enter spec "").map (·, none)

/-- Reads the letters of options that stand together. -/
def readLetters (specs : List OptionSpec) (given : Given) :
    List Char → Except Refusal (Given × Option OptionSpec)
  | [] => .ok (given, none)
  | letter :: rest =>
    match specs.find? (·.letter == some letter) with
    | none => .error .usage
    | some spec =>
      if spec.takesValue then
        match rest with
        | [] => .ok (given, some spec)
        | '=' :: value => (given.enter spec (String.ofList value)).map (·, none)
        | value => (given.enter spec (String.ofList value)).map (·, none)
      else
        match given.enter spec "" with
        | .error refusal => .error refusal
        | .ok given => readLetters specs given rest

def readOption (specs : List OptionSpec) (given : Given) (word : String) :
    Except Refusal (Given × Option OptionSpec) :=
  match word.toList with
  | '-' :: '-' :: text => readLong specs given text
  | text => readLetters specs given (text.drop 1)

/-- Reads options up to the first operand or to the end.  The second result is
what is left. -/
def readOptions (specs : List OptionSpec) (given : Given) :
    List String → Except Refusal (Given × List String)
  | [] => .ok (given, [])
  | word :: rest =>
    if word == "--" || !isOption word then .ok (given, word :: rest)
    else
      match readOption specs given word with
      | .error refusal => .error refusal
      | .ok (given, none) => readOptions specs given rest
      | .ok (given, some spec) =>
        match rest with
        | [] => .error .usage
        | value :: rest =>
          if isOption value then .error .usage
          else
            match given.enter spec value with
            | .error refusal => .error refusal
            | .ok given => readOptions specs given rest

end IncludeGraph.CommandLine
