/-!
# Numbers in archives

Numbers stand with their lowest byte first, at offsets from the start of the archive.
-/

namespace Bytecode
namespace Archive

/-- The number of bytes, the lowest first. -/
def numberOf : List UInt8 → Nat
  | [] => 0
  | low :: high => low.toNat + 256 * numberOf high

def slice? (bytes : Array UInt8) (offset count : Nat) : Option (List UInt8) :=
  if offset + count ≤ bytes.size then some (bytes.extract offset (offset + count)).toList else none

def number? (bytes : Array UInt8) (offset count : Nat) : Option Nat :=
  (slice? bytes offset count).map numberOf

/-!
# Signatures
-/

/-- Four bytes by which a part of an archive is known. -/
inductive Signature where
  /-- In front of a member. -/
  | member
  /-- A line of the directory. -/
  | line
  /-- The end of the archive. -/
  | ending
  /-- The end of an archive with large numbers. -/
  | largeEnding
  /-- Where the end with large numbers is. -/
  | locator
deriving DecidableEq

namespace Signature

def number : Signature → Nat
  | member => 0x04034B50
  | line => 0x02014B50
  | ending => 0x06054B50
  | largeEnding => 0x06064B50
  | locator => 0x07064B50

def isAt (signature : Signature) (bytes : Array UInt8) (offset : Nat) : Bool :=
  number? bytes offset 4 = some signature.number

/-- Offsets of the signature among `count` offsets from `start` on. -/
def offsets (signature : Signature) (bytes : Array UInt8) (start count : Nat) : List Nat :=
  (List.range' start count).filter (signature.isAt bytes)

/-- Offsets of the signature that lie, with all its bytes, between two others. -/
def between (signature : Signature) (bytes : Array UInt8) (start stop : Nat) : List Nat :=
  signature.offsets bytes start (stop - 3 - start)

end Signature
end Archive
end Bytecode
