import IncludeGraph.Glob.Syntax
import IncludeGraph.Text.Blank
import IncludeGraph.Text.Lines

/-!
# Ignore rules

An ignore file holds one rule on each line.  A rule is a glob; a `!` before it makes
an exception of what matches it, and a slash behind it restricts it to directories.
A glob with a slash before its end has to match the whole path below the directory
of the ignore file, any other glob just the last name.
-/

namespace IncludeGraph.Ignore

open Text

/-- What a rule says about a path that it matches. -/
inductive Verdict where
  | ignored
  | kept
deriving DecidableEq, Repr

structure Rule where
  pattern : Glob.Pattern
  verdict : Verdict
  /-- Only directories match. -/
  directoriesOnly : Bool
deriving DecidableEq, Repr

namespace Rule

/-- Leaves out white space at the end of a line, unless a backslash stands before a
space there. -/
def trimLine (line : List Char) : List Char :=
  if ['\\', ' '].isSuffixOf line then line else trimEnd line

/-- Reads the marks before a glob: what its rule says, whether it starts at the
directory of the ignore file, and the glob itself. -/
def marks : List Char → Verdict × Bool × List Char
  | '\\' :: '!' :: rest => (.ignored, false, '!' :: rest)
  | '\\' :: '#' :: rest => (.ignored, false, '#' :: rest)
  | '!' :: '/' :: rest => (.kept, true, rest)
  | '!' :: rest => (.kept, false, rest)
  | '/' :: rest => (.ignored, true, rest)
  | line => (.ignored, false, line)

/-- Leaves out the slash at the end of a glob, with a backslash before it.  The
first result says whether there is one. -/
def directoryMark (glob : List Char) : Bool × List Char :=
  if glob.getLast? = some '/' then
    let glob := glob.dropLast
    (true, if glob.getLast? = some '\\' then glob.dropLast else glob)
  else (false, glob)

/-- The glob that matches whole paths: one without a slash may start in any
directory, and one for the inside of a directory does not match the directory. -/
def wholeGlob (anchored : Bool) (glob : List Char) : List Char :=
  let glob :=
    if anchored || glob.contains '/' || glob == "**".toList then glob else "**/".toList ++ glob
  if "/**".toList.isSuffixOf glob then glob ++ "/*".toList else glob

/-- Reads a line; empty lines and comments hold no rule.  If `lenient`, brackets
that open no class stand for themselves. -/
def ofLine? (lenient : Bool) (line : List Char) : Except Glob.GlobError (Option Rule) := do
  let trimmed := trimLine line
  if line.head? == some '#' || trimmed.isEmpty then return none
  let (verdict, anchored, glob) := marks trimmed
  let (directoriesOnly, glob) := directoryMark glob
  let tokens ← Glob.parse lenient (wholeGlob anchored glob)
  return some ⟨Glob.pattern tokens, verdict, directoriesOnly⟩

def applies (rule : Rule) (path : List UInt8) (isDirectory : Bool) : Bool :=
  (isDirectory || !rule.directoriesOnly) && rule.pattern.accepts path

end Rule

/-- What the last rule that matches a path says. -/
def verdictOf (rules : List Rule) (path : List Char) (isDirectory : Bool) : Option Verdict :=
  let bytes := Utf8.encode path
  (rules.findRev? fun rule => rule.applies bytes isDirectory).map (·.verdict)

/-- The rules of an ignore file, which may start with byte order marks.  Lines that
hold no valid glob are skipped, and a line that is not UTF-8 ends the file. -/
def rulesOf (content : List UInt8) : List Rule :=
  let lines := (splitLines 0x0a 0x0d content).map Utf8.decode?
  let lines := (lines.takeWhile Option.isSome).filterMap id
  let lines := match lines with
    | first :: rest => first.dropWhile (· == '\ufeff') :: rest
    | [] => []
  lines.filterMap fun line =>
    match Rule.ofLine? true line with
    | .ok rule => rule
    | .error _ => none

/-- A path below a directory, from that directory on.  Both are given by their
spelling; a path without a slash has no directory to leave out. -/
def below (directory path : List Char) : List Char :=
  let isHere := directory.head? == some '.' &&
    (directory.splitOn '/').all fun segment => segment.isEmpty || segment == ['.']
  if isHere || !path.contains '/' then path
  else
    match directory.isPrefixOf? path with
    | some rest => if rest.head? == some '/' then rest.drop 1 else rest
    | none => path

def dropHere : List Char → List Char
  | '.' :: '/' :: rest => rest
  | path => path

end IncludeGraph.Ignore
