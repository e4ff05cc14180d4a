import Std.Data.HashSet
import IncludeGraph.Text.Blank
import IncludeGraph.Text.Lines
import IncludeGraph.Text.Utf8

/-!
# Include directives

A line is an include directive if it starts with a number sign, the word
`include`, white space and a name in quotes.  White space may also stand before
and after the number sign, and anything may follow the name.
-/

namespace IncludeGraph.IncludeDirective

open Text

/-- Leaves out white space, of which there has to be some. -/
def afterBlank? : List Char → Option (List Char)
  | c :: text => if isBlank c then some (skipBlank text) else none
  | [] => none

/-- Reads a name, which is not empty, up to the quote after it. -/
def quotedName? (text : List Char) : Option String :=
  let name := text.takeWhile (· != '"')
  if name.isEmpty || name.length == text.length then none else some (String.ofList name)

/-- The name in quotes, if the line is an include directive. -/
def target? (line : List Char) : Option String := do
  let rest ← List.isPrefixOf? ['#'] (skipBlank line)
  let rest ← List.isPrefixOf? "include".toList (skipBlank rest)
  let rest ← afterBlank? rest
  let rest ← List.isPrefixOf? ['"'] rest
  quotedName? rest

/-- The headers that the directives of a text name, line by line; names of other
files are left out. -/
def scan (headers : Std.HashSet String) (text : List Char) : List String :=
  ((lines text).filterMap target?).filter headers.contains

def scanBytes (headers : Std.HashSet String) (bytes : List UInt8) : List String :=
  scan headers (Utf8.decode bytes)

end IncludeGraph.IncludeDirective
