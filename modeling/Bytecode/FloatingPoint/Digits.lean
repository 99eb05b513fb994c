import Bytecode.FloatingPoint.Format

/-!
# Shortest decimal digits

The fewest decimal digits that still name one finite positive number: a decimal names it when it
lies in the interval of reals that round to it.  Of two decimals of that length the nearer one is
taken, and the upper one when both are equally near.
-/

namespace Bytecode
namespace FloatingPoint

def tenTo (exponent : Nat) : Nat :=
  Nat.pow 10 exponent

/-- The decimal `0.d₁d₂d₃… * 10 ^ exponent`, with digits `d₁d₂d₃…` and a first digit that is not
zero. -/
structure Decimal where
  digits : List Char
  exponent : Int

/-- A fraction `value / unit` together with the distances to both ends of the interval of reals
that round to it, in the same unit. -/
structure Interval where
  value : Nat
  below : Nat
  above : Nat
  unit : Nat
  closed : Bool

namespace Interval

/-- `n` grid steps of `step / unit` lie inside the interval. -/
def contains (i : Interval) (n step : Nat) : Bool :=
  let point := n * step
  if i.closed then i.value ≤ point + i.below && point ≤ i.value + i.above
  else i.value < point + i.below && point < i.value + i.above

/-- A multiple of `step / unit` inside the interval, next to its value. -/
def pick? (i : Interval) (step : Nat) : Option Nat :=
  let low := i.value / step
  let lowIn := i.contains low step
  let highIn := i.contains (low + 1) step
  if lowIn && highIn then
    some (if 2 * (i.value - low * step) < step then low else low + 1)
  else if lowIn then some low
  else if highIn then some (low + 1)
  else none

end Interval

namespace Format

/-- Interval of the finite number `significand * 2 ^ scale`.  Below a power of two the gap is half
as wide. -/
def interval (f : Format) (significand : Nat) (scale : Int) : Interval :=
  let normal := twoTo f.fractionBits ≤ significand
  let narrow := significand = twoTo f.fractionBits
  let closed := !normal || significand % 2 = 0
  let up := if 0 ≤ scale then twoTo scale.toNat else 1
  let down := if 0 ≤ scale then 1 else twoTo (-scale).toNat
  ⟨4 * significand * up, (if narrow then 1 else 2) * up, 2 * up, 4 * down, closed⟩

/-- Tries the grids of ever more digits, starting with the power of ten `exponent - 1`. -/
def shortestFrom (i : Interval) (exponent : Int) : Nat → Nat → Option Decimal
  | 0, _ => none
  | tries + 1, count =>
      let position : Int := exponent - count
      let scaled : Interval :=
        if 0 ≤ position then i
        else
          let p := tenTo (-position).toNat
          { i with value := i.value * p, below := i.below * p, above := i.above * p }
      let step := if 0 ≤ position then i.unit * tenTo position.toNat else i.unit
      match scaled.pick? step with
      | some n =>
          let digits := Nat.toDigits 10 n
          some ⟨digits, digits.length + position⟩
      | none => shortestFrom i exponent tries (count + 1)

/-- Least power of ten above `value / unit`, searched upward from `exponent`. -/
def decimalExponent (value unit : Nat) : Nat → Int → Int
  | 0, exponent => exponent
  | tries + 1, exponent =>
      let below :=
        if 0 ≤ exponent then value < unit * tenTo exponent.toNat
        else value * tenTo (-exponent).toNat < unit
      if below then exponent else decimalExponent value unit tries (exponent + 1)

def trimZeros (digits : List Char) : List Char :=
  (digits.reverse.dropWhile (· = '0')).reverse

def shortest (f : Format) (significand : Nat) (scale : Int) : Decimal :=
  let i := f.interval significand scale
  -- 1233 / 4096 is close to the decimal logarithm of two
  let guess : Int := (scale + significand.log2) * 1233 / 4096 - 1
  let exponent := decimalExponent i.value i.unit 8 guess
  match shortestFrom i exponent 20 1 with
  | some d => { d with digits := trimZeros d.digits }
  | none => ⟨['0'], 1⟩

end Format
end FloatingPoint
end Bytecode
