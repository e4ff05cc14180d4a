import IncludeGraph.Glob.Pattern
import IncludeGraph.Text.Utf8

/-!
# Globs

In a glob, `?` stands for a byte and `*` for any number of them, neither for a
slash; `**` between slashes stands for any number of directories; brackets hold a
class of bytes and braces alternatives; a backslash takes the next character as it
is.  `Glob.parse` reads a glob and `Glob.pattern` says what it matches.
-/

namespace IncludeGraph.Glob

inductive GlobError where
  | unclosedClass
  | invalidRange (low high : Char)
  | unopenedAlternates
  | unclosedAlternates
  | danglingEscape
deriving DecidableEq, Repr

def GlobError.message : GlobError → String
  | unclosedClass => "unclosed character class; missing ']'"
  | invalidRange low high => "invalid range; '" ++ low.toString ++ "' > '" ++ high.toString ++ "'"
  | unopenedAlternates =>
    "unopened alternate group; missing '\x7b' (maybe escape '\x7d' with '[\x7d]'?)"
  | unclosedAlternates =>
    "unclosed alternate group; missing '\x7d' (maybe escape '\x7b' with '[\x7b]'?)"
  | danglingEscape => "dangling '\\'"

inductive Token where
  | literal (c : Char)
  /-- A byte that is not a slash. -/
  | any
  /-- Any number of bytes that are not slashes. -/
  | anyRun
  /-- Any number of directories at the start of a path. -/
  | leadingDirectories
  /-- Anything inside of a directory. -/
  | inside
  /-- Any number of directories between two slashes, or one slash. -/
  | innerDirectories
  | charClass (negated : Bool) (ranges : List (Char × Char))
  | alternates (branches : List (List Token))

def slash : UInt8 := 0x2f

def notSlash : Pattern := .one ⟨true, [(slash, slash)]⟩

/-- The bytes that a range of characters in a class stands for.  Classes hold
bytes: the ends of the range contribute all their bytes, and the range lies between
the last byte of the one and the first byte of the other. -/
def byteRanges (range : Char × Char) : List (UInt8 × UInt8) :=
  let low := String.utf8EncodeChar range.1
  let high := String.utf8EncodeChar range.2
  let single := fun b => (b, b)
  if range.1 = range.2 then low.map single
  else
    low.dropLast.map single ++ [(low.getLastD 0, high.headD 0)] ++ (high.drop 1).map single

mutual

/-- The pattern of a token; `none` if it stands for nothing at all. -/
def Token.pattern? : Token → Option Pattern
  | .literal c => some (.bytes (String.utf8EncodeChar c))
  | .any => some notSlash
  | .anyRun => some (.many notSlash)
  | .leadingDirectories =>
    some (.either (.either .empty (.byte slash)) (.seq .anything (.byte slash)))
  | .inside => some (.seq (.byte slash) .anything)
  | .innerDirectories =>
    some (.either (.byte slash) (.seq (.byte slash) (.seq .anything (.byte slash))))
  | .charClass negated ranges => some (.one ⟨negated, ranges.flatMap byteRanges⟩)
  | .alternates branches =>
    match branchPatterns branches with
    | [] => none
    | p :: others => some (.eitherOf p others)

def tokensPattern? : List Token → Option Pattern
  | [] => none
  | token :: tokens =>
    match token.pattern?, tokensPattern? tokens with
    | some p, some q => some (.seq p q)
    | some p, none => some p
    | none, rest => rest

/-- The patterns of the branches that stand for something. -/
def branchPatterns : List (List Token) → List Pattern
  | [] => []
  | branch :: branches => (tokensPattern? branch).toList ++ branchPatterns branches

end

def pattern : List Token → Pattern
  | [.leadingDirectories] => .anything
  | tokens => (tokensPattern? tokens).getD .empty

structure ClassDraft where
  ranges : List (Char × Char)
  /-- A range has begun and lacks its end. -/
  inRange : Bool

def ClassDraft.endRange (draft : ClassDraft) (high : Char) : Except GlobError ClassDraft :=
  match draft.ranges.getLast? with
  | some (low, _) =>
    if high < low then .error (.invalidRange low high)
    else .ok ⟨draft.ranges.dropLast ++ [(low, high)], false⟩
  | none => .ok ⟨[(high, high)], false⟩

/-- Reads one character of a class that is neither its first one nor its end. -/
def ClassDraft.add (draft : ClassDraft) (c : Char) : Except GlobError ClassDraft :=
  if draft.inRange then draft.endRange c
  else if c = '-' then .ok ⟨draft.ranges, true⟩
  else .ok ⟨draft.ranges ++ [(c, c)], false⟩

/-- Reads a class up to its closing bracket.  The result is `none` if there is no
bracket. -/
def classRest (draft : ClassDraft) : List Char →
    Except GlobError (Option (List (Char × Char) × List Char))
  | [] => .ok none
  | c :: rest =>
    if c = ']' then
      .ok (some (draft.ranges ++ (if draft.inRange then [('-', '-')] else []), rest))
    else
      match draft.add c with
      | .ok draft => classRest draft rest
      | .error e => .error e

theorem length_of_classRest {draft : ClassDraft} {text rest : List Char}
    {ranges : List (Char × Char)} (h : classRest draft text = .ok (some (ranges, rest))) :
    rest.length ≤ text.length := by
  fun_induction classRest draft text with
  | case1 => simp at h
  | case2 => simp_all
  | case3 _ _ _ _ _ _ ih =>
    have := ih h
    simp only [List.length_cons]
    omega
  | case4 => simp at h

def classMark (text : List Char) : Bool × List Char :=
  match text with
  | '!' :: rest => (true, rest)
  | '^' :: rest => (true, rest)
  | _ => (false, text)

theorem length_classMark_le (text : List Char) : (classMark text).2.length ≤ text.length := by
  unfold classMark
  split <;> simp

/-- Reads a class after its opening bracket.  Right at the start, a bracket or a
minus sign stands for itself. -/
def class? (text : List Char) : Except GlobError (Option (Token × List Char)) :=
  match (classMark text).2 with
  | [] => .ok none
  | c :: rest =>
    match classRest ⟨[(c, c)], false⟩ rest with
    | .ok (some (ranges, rest)) => .ok (some (.charClass (classMark text).1 ranges, rest))
    | .ok none => .ok none
    | .error e => .error e

theorem length_of_class? {text rest : List Char} {token : Token}
    (h : class? text = .ok (some (token, rest))) : rest.length ≤ text.length := by
  have hmark := length_classMark_le text
  unfold class? at h
  split at h
  · simp at h
  · rename_i c body hbody
    rw [hbody, List.length_cons] at hmark
    split at h <;> simp only [Except.ok.injEq, Option.some.injEq, Prod.mk.injEq, reduceCtorEq] at h
    rename_i hrest
    have := length_of_classRest hrest
    rw [← h.2]
    omega

/-- The parts of a glob that have been read: sequences of tokens, the last one of
which is being extended.  `openGroups` lists, for every group that is still open, the
number of sequences before it. -/
structure Draft where
  branches : List (List Token)
  openGroups : List Nat
  /-- No bracket may open a class any more. -/
  bracketsAreLiteral : Bool

namespace Draft

def current (draft : Draft) : List Token := draft.branches.getLastD []

def setCurrent (draft : Draft) (tokens : List Token) : Draft :=
  { draft with branches := draft.branches.dropLast ++ [tokens] }

def push (draft : Draft) (tokens : List Token) : Draft :=
  draft.setCurrent (draft.current ++ tokens)

def openGroup (draft : Draft) : Draft :=
  { draft with
    branches := draft.branches ++ [[]], openGroups := draft.branches.length :: draft.openGroups }

def closeGroup (draft : Draft) : Except GlobError Draft :=
  match draft.openGroups with
  | [] => .error .unopenedAlternates
  | start :: openGroups =>
    .ok <| push { draft with branches := draft.branches.take start, openGroups := openGroups }
      [.alternates (draft.branches.drop start)]

/-- Reads a comma, which separates alternatives inside of groups. -/
def comma (draft : Draft) : Draft :=
  if draft.openGroups.isEmpty then draft.push [.literal ',']
  else { draft with branches := draft.branches ++ [[]] }

/-- Puts the token of a double star in the place of the slash before it. -/
def replaceSlash (draft : Draft) (token : Token) : Draft :=
  let kept := match draft.current.getLast? with
    | some .leadingDirectories => .leadingDirectories
    | some .inside => .inside
    | _ => token
  draft.setCurrent (draft.current.dropLast ++ [kept])

end Draft

/-- Reads a double star; `before` is the character before it and `text` the text
after it.  Only between slashes and the ends of the glob or of an alternative it
stands for directories. -/
def doubleStar (draft : Draft) (before : Option Char) (text : List Char) : Draft × List Char :=
  let plain := (draft.push [.anyRun, .anyRun], text)
  if draft.current.isEmpty then
    match text with
    | [] => (draft.push [.leadingDirectories], [])
    | '/' :: rest => (draft.push [.leadingDirectories], rest)
    | _ => plain
  else
    let inGroup := 1 < draft.branches.length
    if before ≠ some '/' ∧ !(inGroup && (before == some ',' || before == some '\x7b')) then plain
    else
      match text with
      | [] => (draft.replaceSlash .inside, [])
      | c :: rest =>
        if inGroup ∧ (c = ',' ∨ c = '\x7d') then (draft.replaceSlash .inside, c :: rest)
        else if c = '/' then (draft.replaceSlash .innerDirectories, rest)
        else plain

theorem length_doubleStar_le (draft : Draft) (before : Option Char) (text : List Char) :
    (doubleStar draft before text).2.length ≤ text.length := by
  unfold doubleStar
  grind

/-- Reads tokens up to the end of a glob.  `before` is the character before the
text.  If `lenient`, a bracket that opens no class stands for itself, and so do
all brackets after it. -/
def parseOnto (lenient : Bool) (draft : Draft) (before : Option Char) (text : List Char) :
    Except GlobError Draft :=
  match text with
  | [] => .ok draft
  | '*' :: '*' :: rest =>
    have := length_doubleStar_le draft before rest
    let next := doubleStar draft before rest
    parseOnto lenient next.1 (some (if next.2.length < rest.length then '/' else '*')) next.2
  | ['\\'] => .error .danglingEscape
  | '\\' :: c :: rest => parseOnto lenient (draft.push [.literal c]) (some c) rest
  | c :: rest =>
    if c = '?' then parseOnto lenient (draft.push [.any]) (some c) rest
    else if c = '*' then parseOnto lenient (draft.push [.anyRun]) (some c) rest
    else if c = '[' ∧ !draft.bracketsAreLiteral then
      match h : class? rest with
      | .error e => .error e
      | .ok (some (token, after)) =>
        have := length_of_class? h
        parseOnto lenient (draft.push [token]) (some ']') after
      | .ok none =>
        if lenient then
          let literal := { draft with bracketsAreLiteral := true }
          parseOnto lenient (literal.push [.literal c]) (some c) rest
        else .error .unclosedClass
    else if c = '\x7b' then parseOnto lenient draft.openGroup (some c) rest
    else if c = '\x7d' then
      match draft.closeGroup with
      | .ok draft => parseOnto lenient draft (some c) rest
      | .error e => .error e
    else if c = ',' then parseOnto lenient draft.comma (some c) rest
    else parseOnto lenient (draft.push [.literal c]) (some c) rest
termination_by text.length

def parse (lenient : Bool) (text : List Char) : Except GlobError (List Token) := do
  let draft ← parseOnto lenient ⟨[[]], [], false⟩ none text
  match draft.branches with
  | [tokens] => return tokens
  | _ => throw .unclosedAlternates

end IncludeGraph.Glob
