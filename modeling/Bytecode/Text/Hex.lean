/-!
# Hexadecimal text

Lower-case hexadecimal digits, optionally padded with zeros.
-/

namespace Bytecode
namespace Text

/-- Lower-case hexadecimal digits of a number, without leading zeros. -/
def hex (n : Nat) : String :=
  String.ofList (Nat.toDigits 16 n)

def hexPadded (width n : Nat) : String :=
  let digits := Nat.toDigits 16 n
  String.ofList (List.replicate (width - digits.length) '0' ++ digits)

end Text
end Bytecode
