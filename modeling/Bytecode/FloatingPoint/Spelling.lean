import Bytecode.FloatingPoint.Digits

/-!
# Spelling of numbers

How the digits of a number are laid out: positional between two powers of ten, otherwise with one
digit before the point and an exponent.
-/

namespace Bytecode
namespace FloatingPoint

structure Spelling where
  /-- Least decimal exponent written positionally. -/
  leastPositional : Int
  /-- Greatest decimal exponent written positionally. -/
  greatestPositional : Int
  /-- A lone digit before an exponent is followed by `.0`. -/
  pointBeforeExponent : Bool
  exponentMark : String
  infinity : String

namespace Spelling

/-- Digits with a point, and a zero on a side that has none. -/
def positional (d : Decimal) : String :=
  if d.exponent ≤ 0 then
    "0." ++ String.ofList (List.replicate (-d.exponent).toNat '0' ++ d.digits)
  else
    let whole := d.digits.take d.exponent.toNat
    let zeros := List.replicate (d.exponent.toNat - d.digits.length) '0'
    let fraction := d.digits.drop d.exponent.toNat
    String.ofList (whole ++ zeros) ++ "." ++
      (if fraction = [] then "0" else String.ofList fraction)

/-- One digit, a point if digits follow, and the power of ten. -/
def scientific (s : Spelling) (d : Decimal) : String :=
  let first := String.ofList (d.digits.take 1)
  let fraction :=
    match d.digits.drop 1 with
    | [] => if s.pointBeforeExponent then ".0" else ""
    | rest => "." ++ String.ofList rest
  first ++ fraction ++ s.exponentMark ++ toString (d.exponent - 1)

def write (s : Spelling) (f : Format) (word : Nat) : String :=
  match f.unpack word with
  | .notANumber => "NaN"
  | .infinite negative => (if negative then "-" else "") ++ s.infinity
  | .finite negative m e =>
      let sign := if negative then "-" else ""
      if m = 0 then sign ++ "0.0"
      else
        let d := f.shortest m e
        sign ++
          (if s.leastPositional ≤ d.exponent && d.exponent ≤ s.greatestPositional
            then positional d
            else s.scientific d)

end Spelling

/-- Numbers inside messages: positional from `1e-4` up to `1e16`. -/
def plain : Spelling := ⟨-3, 16, false, "e", "inf"⟩

/-- Numbers a program prints: positional from `1e-3` up to `1e7`. -/
def printed : Spelling := ⟨-2, 7, true, "E", "Infinity"⟩

end FloatingPoint
end Bytecode
