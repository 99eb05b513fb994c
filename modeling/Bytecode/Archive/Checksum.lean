/-!
# Checksums

The cyclic checksum of 32 bits that archives keep for each member.
-/

namespace Bytecode
namespace Archive

/-- Shifts a number of bits out of the remainder. -/
def shiftRemainder (r : UInt32) : Nat → UInt32
  | 0 => r
  | bits + 1 =>
      shiftRemainder (if r &&& 1 = 0 then r >>> 1 else (r >>> 1) ^^^ 0xEDB88320) bits

def checksum (bytes : List UInt8) : UInt32 :=
  (bytes.foldl (fun r b => shiftRemainder (r ^^^ b.toUInt32) 8) 0xFFFFFFFF) ^^^ 0xFFFFFFFF

end Archive
end Bytecode
