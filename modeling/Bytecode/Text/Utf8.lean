import Bytecode.Text.Utf16

/-!
# UTF-8

Text in bytes, one to four for a character.  Bytes that are no part of a character are replaced: a
byte that starts none, and the longest beginning of one that is broken off.
-/

namespace Bytecode
namespace Text

/-- A character of which some bytes are still to come. -/
structure Unfinished where
  /-- Number of the bytes to come. -/
  left : Nat
  /-- Least next byte. -/
  low : UInt8
  /-- Greatest next byte. -/
  high : UInt8
  /-- Number that the bytes read so far give. -/
  value : Nat

/-- What has to follow the first of several bytes.  The bounds leave out longer forms than needed,
surrogates, and numbers above the last code point. -/
def unfinished? (b : UInt8) : Option Unfinished :=
  if b < 0xC2 then none
  else if b < 0xE0 then some ⟨1, 0x80, 0xBF, b.toNat % 32⟩
  else if b = 0xE0 then some ⟨2, 0xA0, 0xBF, b.toNat % 16⟩
  else if b = 0xED then some ⟨2, 0x80, 0x9F, b.toNat % 16⟩
  else if b < 0xF0 then some ⟨2, 0x80, 0xBF, b.toNat % 16⟩
  else if b = 0xF0 then some ⟨3, 0x90, 0xBF, b.toNat % 8⟩
  else if b < 0xF4 then some ⟨3, 0x80, 0xBF, b.toNat % 8⟩
  else if b = 0xF4 then some ⟨3, 0x80, 0x8F, b.toNat % 8⟩
  else none

/-- Reads a byte between characters: the characters it completes, and what it begins. -/
def firstByte (b : UInt8) : List Char × Option Unfinished :=
  if b < 0x80 then
    ([Char.ofNat b.toNat], none)
  else
    match unfinished? b with
    | some u => ([], some u)
    | none => ([replacement], none)

/-- Reads a byte inside a character.  One that does not fit breaks the character off and is read
again between characters. -/
def furtherByte (u : Unfinished) (b : UInt8) : List Char × Option Unfinished :=
  if u.low ≤ b ∧ b ≤ u.high then
    let value := 64 * u.value + b.toNat % 64
    if u.left ≤ 1 then ([Char.ofNat value], none)
    else ([], some ⟨u.left - 1, 0x80, 0xBF, value⟩)
  else
    let (chars, next) := firstByte b
    (replacement :: chars, next)

def charsOfBytes : Option Unfinished → List UInt8 → List Char
  | none, [] => []
  | some _, [] => [replacement]
  | none, b :: rest =>
      let (chars, next) := firstByte b
      chars ++ charsOfBytes next rest
  | some u, b :: rest =>
      let (chars, next) := furtherByte u b
      chars ++ charsOfBytes next rest

def ofUtf8 (bytes : List UInt8) : String :=
  String.ofList (charsOfBytes none bytes)

end Text
end Bytecode
