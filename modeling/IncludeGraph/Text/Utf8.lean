/-!
# UTF-8

`decode` reads bytes as UTF-8 and never fails: bytes that start a character but do
not complete it, up to the first byte that cannot follow them, stand for one
replacement character, and so does every byte that starts no character.
-/

namespace IncludeGraph.Utf8

/-- What the first byte of a character tells about it. -/
structure Lead where
  /-- The part of the code point that the byte holds. -/
  value : Nat
  /-- The number of bytes that follow. -/
  more : Nat
  /-- The least second byte. -/
  low : UInt8
  /-- The greatest second byte. -/
  high : UInt8

/-- Reads the first byte of a character.  The bounds of the second byte rule out
long forms, surrogates and numbers above all code points. -/
def lead? (byte : UInt8) : Option Lead :=
  if byte ≤ 0x7f then some ⟨byte.toNat, 0, 0x80, 0xbf⟩
  else if 0xc2 ≤ byte ∧ byte ≤ 0xdf then some ⟨byte.toNat - 0xc0, 1, 0x80, 0xbf⟩
  else if byte = 0xe0 then some ⟨0, 2, 0xa0, 0xbf⟩
  else if byte = 0xed then some ⟨0xd, 2, 0x80, 0x9f⟩
  else if 0xe1 ≤ byte ∧ byte ≤ 0xef then some ⟨byte.toNat - 0xe0, 2, 0x80, 0xbf⟩
  else if byte = 0xf0 then some ⟨0, 3, 0x90, 0xbf⟩
  else if 0xf1 ≤ byte ∧ byte ≤ 0xf3 then some ⟨byte.toNat - 0xf0, 3, 0x80, 0xbf⟩
  else if byte = 0xf4 then some ⟨4, 3, 0x80, 0x8f⟩
  else none

/-- Reads the bytes that follow the first one, as far as they are in bounds, and
returns the code point if none is missing, with the bytes that are left. -/
def follow (value : Nat) (low high : UInt8) : (more : Nat) → List UInt8 → Option Nat × List UInt8
  | 0, bytes => (some value, bytes)
  | _ + 1, [] => (none, [])
  | more + 1, byte :: bytes =>
    if low ≤ byte ∧ byte ≤ high then
      follow (value * 64 + (byte.toNat - 0x80)) 0x80 0xbf more bytes
    else (none, byte :: bytes)

theorem length_follow_le (value : Nat) (low high : UInt8) (more : Nat) (bytes : List UInt8) :
    (follow value low high more bytes).2.length ≤ bytes.length := by
  fun_induction follow value low high more bytes with
  | case1 => simp
  | case2 => simp
  | case3 value low high more byte bytes h ih =>
    simp only [List.length_cons]
    omega
  | case4 => simp

def replacement : Char := '\ufffd'

def readChar (byte : UInt8) (bytes : List UInt8) : Char × List UInt8 :=
  match lead? byte with
  | none => (replacement, bytes)
  | some lead =>
    let (code, rest) := follow lead.value lead.low lead.high lead.more bytes
    ((code.map Char.ofNat).getD replacement, rest)

theorem length_readChar_le (byte : UInt8) (bytes : List UInt8) :
    (readChar byte bytes).2.length ≤ bytes.length := by
  unfold readChar
  split
  · simp
  · exact length_follow_le ..

def decodeOnto (text : Array Char) : List UInt8 → Array Char
  | [] => text
  | byte :: bytes =>
    let next := readChar byte bytes
    decodeOnto (text.push next.1) next.2
termination_by bytes => bytes.length
decreasing_by
  have := length_readChar_le byte bytes
  simp only [List.length_cons]
  omega

def decode (bytes : List UInt8) : List Char := (decodeOnto #[] bytes).toList

/-- The text that bytes stand for, if they are UTF-8 throughout. -/
def decode? (bytes : List UInt8) : Option (List Char) :=
  let array := ByteArray.mk bytes.toArray
  array.utf8Decode?.map Array.toList

def encode (text : List Char) : List UInt8 := text.flatMap String.utf8EncodeChar

end IncludeGraph.Utf8
