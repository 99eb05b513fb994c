/-!
# Binary floating-point formats

A format is given by the widths of its two fields.  A word is unpacked into a sign, a natural
significand and a power of two, and an exact dyadic number is packed into the nearest word, ties
going to the even significand.
-/

namespace Bytecode
namespace FloatingPoint

def twoTo (exponent : Nat) : Nat :=
  Nat.pow 2 exponent

structure Format where
  fractionBits : Nat
  exponentBits : Nat

def single : Format := ⟨23, 8⟩

def double : Format := ⟨52, 11⟩

/-- What a word stands for: `significand * 2 ^ scale` when it is finite. -/
inductive Datum where
  | notANumber
  | infinite (negative : Bool)
  | finite (negative : Bool) (significand : Nat) (scale : Int)

namespace Format

/-- Exponent field of infinities and of words that are no numbers. -/
def topExponent (f : Format) : Nat :=
  twoTo f.exponentBits - 1

def leastScale (f : Format) : Int :=
  2 - (twoTo (f.exponentBits - 1) : Int) - f.fractionBits

def signBit (f : Format) : Nat :=
  twoTo (f.fractionBits + f.exponentBits)

def isNegative (f : Format) (word : Nat) : Bool :=
  word / f.signBit % 2 = 1

def fractionField (f : Format) (word : Nat) : Nat :=
  word % twoTo f.fractionBits

def exponentField (f : Format) (word : Nat) : Nat :=
  word / twoTo f.fractionBits % twoTo f.exponentBits

def isNaN (f : Format) (word : Nat) : Bool :=
  f.exponentField word = f.topExponent && f.fractionField word ≠ 0

def withSign (f : Format) (negative : Bool) (magnitude : Nat) : Nat :=
  if negative then f.signBit + magnitude else magnitude

def infinity (f : Format) (negative : Bool) : Nat :=
  f.withSign negative (f.topExponent * twoTo f.fractionBits)

def quietBit (f : Format) : Nat :=
  twoTo (f.fractionBits - 1)

def quiet (f : Format) (word : Nat) : Nat :=
  word ||| f.quietBit

/-- Result of an operation that has no value: a negative quiet not-a-number. -/
def invalid (f : Format) : Nat :=
  f.infinity true + f.quietBit

def unpack (f : Format) (word : Nat) : Datum :=
  let negative := f.isNegative word
  let fraction := f.fractionField word
  let exponent := f.exponentField word
  if exponent = f.topExponent then
    if fraction = 0 then .infinite negative else .notANumber
  else if exponent = 0 then
    .finite negative fraction f.leastScale
  else
    -- the leading bit of these words is not stored
    .finite negative (twoTo f.fractionBits + fraction) (f.leastScale + (exponent - 1))

/-- `n / 2 ^ shift`, rounded to the nearest number, a half to the even one. -/
def shiftRoundEven (n shift : Nat) : Nat :=
  let floor := n >>> shift
  let rest := n - floor <<< shift
  let half := twoTo (shift - 1)
  if shift = 0 then n
  else if rest < half then floor
  else if half < rest then floor + 1
  else floor + floor % 2

/-- The word nearest to `significand * 2 ^ scale`, ties to even, too large to infinity. -/
def pack (f : Format) (negative : Bool) (significand : Nat) (scale : Int) : Nat :=
  if significand = 0 then
    f.withSign negative 0
  else
    -- bits of the significand for which a word has no room
    let excess : Int := significand.log2 - f.fractionBits
    let unit := max (scale + excess) f.leastScale
    let rounded :=
      if unit ≤ scale then significand <<< (scale - unit).toNat
      else shiftRoundEven significand (unit - scale).toNat
    -- a carry out of the fraction runs into the exponent
    let magnitude :=
      if rounded < twoTo f.fractionBits then rounded
      else
        ((unit - f.leastScale).toNat + 1) * twoTo f.fractionBits +
          (rounded - twoTo f.fractionBits)
    if f.topExponent * twoTo f.fractionBits ≤ magnitude then
      f.infinity negative
    else
      f.withSign negative magnitude

end Format

end FloatingPoint
end Bytecode
