/-!
# Patterns of bytes

A pattern describes a set of byte sequences.  `Pattern.accepts` reads a sequence
byte by byte and keeps the patterns of which one has to match what is left.
-/

namespace IncludeGraph.Glob

/-- A set of bytes: the given ranges, or all bytes outside of them. -/
structure ByteClass where
  negated : Bool
  ranges : List (UInt8 × UInt8)
deriving DecidableEq, Repr

def ByteClass.contains (c : ByteClass) (byte : UInt8) : Bool :=
  (c.ranges.any fun (low, high) => low ≤ byte && byte ≤ high) != c.negated

inductive Pattern where
  /-- Nothing. -/
  | empty
  /-- One byte of a class. -/
  | one (c : ByteClass)
  /-- Two patterns, one after the other. -/
  | seq (first second : Pattern)
  /-- One of two patterns. -/
  | either (left right : Pattern)
  /-- A pattern any number of times. -/
  | many (p : Pattern)
deriving DecidableEq, Repr

namespace Pattern

/-- One of several patterns, of which there is at least one. -/
def eitherOf (p : Pattern) (others : List Pattern) : Pattern :=
  match others with
  | [] => p
  | q :: others => either p (eitherOf q others)

def acceptsEmpty : Pattern → Bool
  | empty => true
  | one _ => false
  | seq p q => p.acceptsEmpty && q.acceptsEmpty
  | either p q => p.acceptsEmpty || q.acceptsEmpty
  | many _ => true

/-- The patterns of which one has to match what follows a byte. -/
def after (byte : UInt8) : Pattern → List Pattern
  | empty => []
  | one c => if c.contains byte then [empty] else []
  | seq p q => (p.after byte).map (seq · q) ++ if p.acceptsEmpty then q.after byte else []
  | either p q => p.after byte ++ q.after byte
  | many p => (p.after byte).map (seq · (many p))

def accepts (p : Pattern) (bytes : List UInt8) : Bool :=
  (bytes.foldl (fun ps byte => (ps.flatMap (after byte)).eraseDups) [p]).any acceptsEmpty

def byte (b : UInt8) : Pattern := one ⟨false, [(b, b)]⟩

def bytes (bs : List UInt8) : Pattern := bs.foldr (fun b p => seq (byte b) p) empty

def anyByte : Pattern := one ⟨true, []⟩

def anything : Pattern := many anyByte

end Pattern

end IncludeGraph.Glob
