import Bytecode.FloatingPoint.Format

/-!
# Floating-point arithmetic

The four operations, the truncating remainder, negation and comparison on words of a format.  Each
finite result is computed exactly and packed once.  An operand that is not a number is handed on
with its quiet bit set, the first operand first.
-/

namespace Bytecode
namespace FloatingPoint
namespace Format

/-- Hands on operands that are not numbers and applies `op` to the others. -/
def binary (f : Format) (op : Datum → Datum → Nat) (a b : Nat) : Nat :=
  if f.isNaN a then f.quiet a
  else if f.isNaN b then f.quiet b
  else op (f.unpack a) (f.unpack b)

def signed (negative : Bool) (n : Nat) : Int :=
  if negative then -(n : Int) else n

/-- Exact sum of two finite numbers, packed; a zero sum is negative only if both terms are. -/
def addFinite (f : Format) (na : Bool) (ma : Nat) (ea : Int) (nb : Bool) (mb : Nat) (eb : Int) :
    Nat :=
  let unit := min ea eb
  let total := signed na (ma <<< (ea - unit).toNat) + signed nb (mb <<< (eb - unit).toNat)
  if total = 0 then f.withSign (na && nb) 0
  else f.pack (total < 0) total.natAbs unit

def addData (f : Format) : Datum → Datum → Nat
  | .finite na ma ea, .finite nb mb eb => f.addFinite na ma ea nb mb eb
  | .infinite na, .infinite nb => if na = nb then f.infinity na else f.invalid
  | .infinite na, _ => f.infinity na
  | _, .infinite nb => f.infinity nb
  | _, _ => f.invalid

def negateDatum : Datum → Datum
  | .notANumber => .notANumber
  | .infinite n => .infinite !n
  | .finite n m e => .finite (!n) m e

def mulData (f : Format) : Datum → Datum → Nat
  | .finite na ma ea, .finite nb mb eb => f.pack (na != nb) (ma * mb) (ea + eb)
  | .infinite na, .infinite nb => f.infinity (na != nb)
  | .infinite na, .finite nb mb _ => if mb = 0 then f.invalid else f.infinity (na != nb)
  | .finite na ma _, .infinite nb => if ma = 0 then f.invalid else f.infinity (na != nb)
  | _, _ => f.invalid

/-- Quotient of two positive finite numbers.  Enough bits are kept for packing to round as the
exact quotient would; a last odd bit stands for everything cut off. -/
def divFinite (f : Format) (negative : Bool) (ma : Nat) (ea : Int) (mb : Nat) (eb : Int) : Nat :=
  let shift := f.fractionBits + 4 + mb.log2
  let scaled := ma <<< shift
  let sticky := if scaled % mb = 0 then 0 else 1
  f.pack negative (2 * (scaled / mb) + sticky) (ea - eb - shift - 1)

def divData (f : Format) : Datum → Datum → Nat
  | .finite na ma ea, .finite nb mb eb =>
      if mb = 0 then
        if ma = 0 then f.invalid else f.infinity (na != nb)
      else
        f.divFinite (na != nb) ma ea mb eb
  | .infinite _, .infinite _ => f.invalid
  | .infinite na, .finite nb _ _ => f.infinity (na != nb)
  | .finite na _ _, .infinite nb => f.withSign (na != nb) 0
  | _, _ => f.invalid

/-- Remainder of the division that truncates toward zero; it has the sign of the first operand. -/
def remData (f : Format) : Datum → Datum → Nat
  | .finite na ma ea, .finite _ mb eb =>
      if mb = 0 then f.invalid
      else
        let unit := min ea eb
        f.pack na (ma <<< (ea - unit).toNat % mb <<< (eb - unit).toNat) unit
  | .finite na ma ea, .infinite _ => f.pack na ma ea
  | _, _ => f.invalid

def add (f : Format) : Nat → Nat → Nat := f.binary f.addData

def sub (f : Format) : Nat → Nat → Nat := f.binary fun a b => f.addData a (negateDatum b)

def mul (f : Format) : Nat → Nat → Nat := f.binary f.mulData

def div (f : Format) : Nat → Nat → Nat := f.binary f.divData

def rem (f : Format) : Nat → Nat → Nat := f.binary f.remData

def negate (f : Format) (word : Nat) : Nat :=
  word ^^^ f.signBit

def compareFinite (na : Bool) (ma : Nat) (ea : Int) (nb : Bool) (mb : Nat) (eb : Int) : Ordering :=
  let unit := min ea eb
  compare (signed na (ma <<< (ea - unit).toNat)) (signed nb (mb <<< (eb - unit).toNat))

def compare? (f : Format) (a b : Nat) : Option Ordering :=
  match f.unpack a, f.unpack b with
  | .notANumber, _ => none
  | _, .notANumber => none
  | .infinite na, .infinite nb => some (compare (signed na 1) (signed nb 1))
  | .infinite na, .finite .. => some (if na then .lt else .gt)
  | .finite .., .infinite nb => some (if nb then .gt else .lt)
  | .finite na ma ea, .finite nb mb eb => some (compareFinite na ma ea nb mb eb)

end Format
end FloatingPoint
end Bytecode
