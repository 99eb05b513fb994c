import Bytecode.FloatingPoint.Arithmetic

/-!
# Conversions

Between integers and words of a format, and between two formats.  An integer becomes the nearest
word.  A word becomes the integer part of its value, clamped to the given range, and zero when it
is not a number.
-/

namespace Bytecode
namespace FloatingPoint
namespace Format

def ofInt (f : Format) (n : Int) : Nat :=
  f.pack (n < 0) n.natAbs 0

def clamp (low high n : Int) : Int :=
  max low (min high n)

/-- Integer part of a word, clamped to `low` and `high`. -/
def toInt (f : Format) (low high : Int) (word : Nat) : Int :=
  match f.unpack word with
  | .notANumber => 0
  | .infinite negative => if negative then low else high
  | .finite negative m e =>
      let magnitude := if 0 ≤ e then m <<< e.toNat else m >>> (-e).toNat
      clamp low high (signed negative magnitude)

/-- The word of `target` nearest to a word of `source`.  What is not a number keeps its sign and
the leading bits of its fraction. -/
def convert (source target : Format) (word : Nat) : Nat :=
  match source.unpack word with
  | .notANumber =>
      let fraction := source.fractionField word
      let moved :=
        if source.fractionBits ≤ target.fractionBits then
          fraction <<< (target.fractionBits - source.fractionBits)
        else
          fraction >>> (source.fractionBits - target.fractionBits)
      target.quiet (target.infinity (source.isNegative word) + moved)
  | .infinite negative => target.infinity negative
  | .finite negative m e => target.pack negative m e

end Format

/-!
# Words of the two formats
-/

namespace Single

def add (a b : UInt32) : UInt32 := (single.add a.toNat b.toNat).toUInt32

def sub (a b : UInt32) : UInt32 := (single.sub a.toNat b.toNat).toUInt32

def mul (a b : UInt32) : UInt32 := (single.mul a.toNat b.toNat).toUInt32

def div (a b : UInt32) : UInt32 := (single.div a.toNat b.toNat).toUInt32

def rem (a b : UInt32) : UInt32 := (single.rem a.toNat b.toNat).toUInt32

def negate (a : UInt32) : UInt32 := (single.negate a.toNat).toUInt32

def compare? (a b : UInt32) : Option Ordering := single.compare? a.toNat b.toNat

def ofInt (n : Int) : UInt32 := (single.ofInt n).toUInt32

def toInt32 (a : UInt32) : Int32 :=
  Int32.ofInt (single.toInt Int32.minValue.toInt Int32.maxValue.toInt a.toNat)

def toInt64 (a : UInt32) : Int64 :=
  Int64.ofInt (single.toInt Int64.minValue.toInt Int64.maxValue.toInt a.toNat)

def toDouble (a : UInt32) : UInt64 := (single.convert double a.toNat).toUInt64

def isNaN (a : UInt32) : Bool := single.isNaN a.toNat

end Single

namespace Double

def add (a b : UInt64) : UInt64 := (double.add a.toNat b.toNat).toUInt64

def sub (a b : UInt64) : UInt64 := (double.sub a.toNat b.toNat).toUInt64

def mul (a b : UInt64) : UInt64 := (double.mul a.toNat b.toNat).toUInt64

def div (a b : UInt64) : UInt64 := (double.div a.toNat b.toNat).toUInt64

def rem (a b : UInt64) : UInt64 := (double.rem a.toNat b.toNat).toUInt64

def negate (a : UInt64) : UInt64 := (double.negate a.toNat).toUInt64

def compare? (a b : UInt64) : Option Ordering := double.compare? a.toNat b.toNat

def ofInt (n : Int) : UInt64 := (double.ofInt n).toUInt64

def toInt32 (a : UInt64) : Int32 :=
  Int32.ofInt (double.toInt Int32.minValue.toInt Int32.maxValue.toInt a.toNat)

def toInt64 (a : UInt64) : Int64 :=
  Int64.ofInt (double.toInt Int64.minValue.toInt Int64.maxValue.toInt a.toNat)

def toSingle (a : UInt64) : UInt32 := (double.convert single a.toNat).toUInt32

def isNaN (a : UInt64) : Bool := double.isNaN a.toNat

end Double
end FloatingPoint
end Bytecode
