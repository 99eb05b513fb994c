/-!
# UTF-16 units

Text as 16-bit units and back.  A character below `0x10000` is one unit, any other character is a
high unit followed by a low unit.  Reading is total: a surrogate without its partner is read as
the replacement character.
-/

namespace Bytecode
namespace Text

/-- Stands for a unit that belongs to no character. -/
def replacement : Char := Char.ofNat 0xFFFD

def isHighSurrogate (u : UInt16) : Bool :=
  0xD800 ≤ u && u < 0xDC00

def isLowSurrogate (u : UInt16) : Bool :=
  0xDC00 ≤ u && u < 0xE000

def joinSurrogates (high low : UInt16) : Char :=
  Char.ofNat (0x10000 + (high.toNat - 0xD800) * 0x400 + (low.toNat - 0xDC00))

def charUnits (c : Char) : List UInt16 :=
  if c.toNat < 0x10000 then
    [c.toNat.toUInt16]
  else
    let rest := c.toNat - 0x10000
    [(0xD800 + rest / 0x400).toUInt16, (0xDC00 + rest % 0x400).toUInt16]

def toUnits (s : String) : List UInt16 :=
  s.toList.flatMap charUnits

/-- Characters of a list of units, the replacement character for each unpaired surrogate. -/
def charsOfUnits : List UInt16 → List Char
  | [] => []
  | [u] =>
      [if isHighSurrogate u || isLowSurrogate u then replacement else Char.ofNat u.toNat]
  | u :: v :: rest =>
      if isHighSurrogate u then
        if isLowSurrogate v then
          joinSurrogates u v :: charsOfUnits rest
        else
          replacement :: charsOfUnits (v :: rest)
      else if isLowSurrogate u then
        replacement :: charsOfUnits (v :: rest)
      else
        Char.ofNat u.toNat :: charsOfUnits (v :: rest)

def ofUnits (units : List UInt16) : String :=
  String.ofList (charsOfUnits units)

/-- Polynomial hash of a list of units: `31 * h + u` for each unit, modulo `2 ^ 32`. -/
def unitHash (units : List UInt16) : Int32 :=
  units.foldl (fun h u => 31 * h + u.toUInt32.toInt32) 0

end Text
end Bytecode
