import Bytecode.Text.Utf16

/-!
# Modified UTF-8

The byte form of text inside class files.  It encodes 16-bit units rather than characters: one byte
for `0x0001` to `0x007F`, two bytes for zero and `0x0080` to `0x07FF`, three bytes for the rest.
Decoding looks only at the lead byte, so the marks on continuation bytes are not checked.
-/

namespace Bytecode
namespace Text

/-- A byte that cannot start a unit where it stands. -/
structure BadByte where
  byte : UInt8
  position : Nat
deriving DecidableEq

/-!
# Decoding
-/

def unitOfTwo (a b : UInt8) : UInt16 :=
  ((a.toUInt16 &&& 0x1F) <<< 6) ||| (b.toUInt16 &&& 0x3F)

def unitOfThree (a b c : UInt8) : UInt16 :=
  ((a.toUInt16 &&& 0x0F) <<< 12) ||| ((b.toUInt16 &&& 0x3F) <<< 6) ||| (c.toUInt16 &&& 0x3F)

/-- Units of a byte list whose first byte stands at `position`. -/
def unitsOfBytes (position : Nat) : List UInt8 → Except BadByte (List UInt16)
  | [] => .ok []
  | [a] =>
      if a &&& 0x80 = 0 then .ok [a.toUInt16] else .error ⟨a, position⟩
  | [a, b] =>
      if a &&& 0x80 = 0 then
        (unitsOfBytes (position + 1) [b]).map (a.toUInt16 :: ·)
      else if a &&& 0xE0 = 0xC0 then
        .ok [unitOfTwo a b]
      else
        .error ⟨a, position⟩
  | a :: b :: c :: rest =>
      if a &&& 0x80 = 0 then
        (unitsOfBytes (position + 1) (b :: c :: rest)).map (a.toUInt16 :: ·)
      else if a &&& 0xE0 = 0xC0 then
        (unitsOfBytes (position + 2) (c :: rest)).map (unitOfTwo a b :: ·)
      else if a &&& 0xF0 = 0xE0 then
        (unitsOfBytes (position + 3) rest).map (unitOfThree a b c :: ·)
      else
        .error ⟨a, position⟩

/-- Text of a byte list; surrogates without a partner are replaced. -/
def ofModifiedUtf8 (bytes : List UInt8) : Except BadByte String :=
  (unitsOfBytes 0 bytes).map ofUnits

/-!
# Encoding
-/

def unitBytes (u : UInt16) : List UInt8 :=
  if 0 < u && u < 0x80 then
    [u.toUInt8]
  else if u < 0x800 then
    [(u >>> 6).toUInt8 ||| 0xC0, (u.toUInt8 &&& 0x3F) ||| 0x80]
  else
    [(u >>> 12).toUInt8 ||| 0xE0, ((u >>> 6).toUInt8 &&& 0x3F) ||| 0x80,
      (u.toUInt8 &&& 0x3F) ||| 0x80]

def bytesOfUnits (units : List UInt16) : List UInt8 :=
  units.flatMap unitBytes

def toModifiedUtf8 (s : String) : List UInt8 :=
  bytesOfUnits (toUnits s)

end Text
end Bytecode
