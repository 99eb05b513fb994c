import Bytecode.Archive.PrefixCode
import Bytecode.Fault

/-!
# Inflation

Reads compressed data: blocks of literal bytes and of references to earlier output, coded by prefix
codes of varying length.  Bits are taken from the low end of each byte.
-/

namespace Bytecode
namespace Archive

structure Inflater where
  input : Array UInt8
  /-- Bits read so far. -/
  position : Nat
  output : Array UInt8

/-- Steps of inflation.  Data that is corrupt or ends too early has no result. -/
abbrev InflateM := StateT Inflater Option

namespace Inflater

/-!
# Bits
-/

def bit : InflateM Nat := do
  let s ← get
  match s.input[s.position / 8]? with
  | none => failure
  | some byte =>
      set { s with position := s.position + 1 }
      return byte.toNat >>> (s.position % 8) % 2

/-- A number of the given bits, the lowest first. -/
def bits : Nat → InflateM Nat
  | 0 => return 0
  | count + 1 => do
      let low ← bit
      let high ← bits count
      return low + 2 * high

def align : InflateM Unit :=
  modify fun s => { s with position := (s.position + 7) / 8 * 8 }

def put (byte : UInt8) : InflateM Unit :=
  modify fun s => { s with output := s.output.push byte }

/-!
# Symbols
-/

def symbol : PrefixCode → InflateM Nat
  | .word symbol => return symbol
  | .gap => failure
  | .fork zero one => do
      if (← bit) = 0 then symbol zero else symbol one

def codeOf (lengths : List Nat) : InflateM PrefixCode := do
  let some code := PrefixCode.ofLengths? lengths | failure
  return code

/-!
# Blocks
-/

def copyBytes : Nat → InflateM Unit
  | 0 => return ()
  | count + 1 => do
      put (← bits 8).toUInt8
      copyBytes count

/-- Bytes that stand as they are, after their count and its complement. -/
def storedBlock : InflateM Unit := do
  align
  let length ← bits 16
  let complement ← bits 16
  if length + complement ≠ 0xFFFF then failure
  copyBytes length

/-- Repeats earlier output, byte by byte.  Before the first byte of output there are zeros. -/
def repeatOutput (distance : Nat) : Nat → InflateM Unit
  | 0 => return ()
  | count + 1 => do
      let s ← get
      put (if distance ≤ s.output.size then s.output.getD (s.output.size - distance) 0 else 0)
      repeatOutput distance count

/-- Least length and number of extra bits of the length symbols. -/
def lengthTable : List (Nat × Nat) := [
  (3, 0), (4, 0), (5, 0), (6, 0), (7, 0), (8, 0), (9, 0), (10, 0), (11, 1), (13, 1), (15, 1),
  (17, 1), (19, 2), (23, 2), (27, 2), (31, 2), (35, 3), (43, 3), (51, 3), (59, 3), (67, 4),
  (83, 4), (99, 4), (115, 4), (131, 5), (163, 5), (195, 5), (227, 5), (258, 0)]

def distanceTable : List (Nat × Nat) := [
  (1, 0), (2, 0), (3, 0), (4, 0), (5, 1), (7, 1), (9, 2), (13, 2), (17, 3), (25, 3), (33, 4),
  (49, 4), (65, 5), (97, 5), (129, 6), (193, 6), (257, 7), (385, 7), (513, 8), (769, 8),
  (1025, 9), (1537, 9), (2049, 10), (3073, 10), (4097, 11), (6145, 11), (8193, 12), (12289, 12),
  (16385, 13), (24577, 13)]

/-- A number given by a symbol of a table and the extra bits after it. -/
def extended (table : List (Nat × Nat)) (s : Nat) : InflateM Nat := do
  match table[s]? with
  | none => failure
  | some (least, extra) => return least + (← bits extra)

/-- Symbols up to the one that ends the block.  Each takes at least one bit, so a count as large as
the input has bits is never used up. -/
def codedBlock (literals distances : PrefixCode) : Nat → InflateM Unit
  | 0 => failure
  | count + 1 => do
      let s ← symbol literals
      if s = 256 then
        return ()
      if s < 256 then
        put s.toUInt8
      else
        let length ← extended lengthTable (s - 257)
        let distance ← extended distanceTable (← symbol distances)
        repeatOutput distance length
      codedBlock literals distances count

def fixedLiteralLengths : List Nat :=
  List.replicate 144 8 ++ List.replicate 112 9 ++ List.replicate 24 7 ++ List.replicate 8 8

def fixedDistanceLengths : List Nat :=
  List.replicate 32 5

/-- Order in which the lengths of the code for code lengths are given. -/
def lengthOrder : List Nat :=
  [16, 17, 18, 0, 8, 7, 9, 6, 10, 5, 11, 4, 12, 3, 13, 2, 14, 1, 15]

/-- Three bits for each of the first symbols of the order, zero for the others. -/
def orderedLengths (count : Nat) : InflateM (List Nat) := do
  let given ← (lengthOrder.take count).mapM fun s => do return (s, ← bits 3)
  return (List.range 19).map fun s => (given.lookup s).getD 0

/-- Reads code lengths until there are `wanted` of them; `done` holds them in reverse. -/
def codeLengths (code : PrefixCode) (wanted : Nat) (done : List Nat) : Nat → InflateM (List Nat)
  | 0 => failure
  | count + 1 => do
      if wanted < done.length then failure
      if done.length = wanted then
        return done.reverse
      let s ← symbol code
      if s < 16 then
        codeLengths code wanted (s :: done) count
      else if s = 16 then
        let times := 3 + (← bits 2)
        match done with
        | [] => failure
        | last :: _ => codeLengths code wanted (List.replicate times last ++ done) count
      else
        let times ← if s = 17 then (3 + ·) <$> bits 3 else (11 + ·) <$> bits 7
        codeLengths code wanted (List.replicate times 0 ++ done) count

def maxLiterals : Nat := 286

def maxDistances : Nat := 30

def ownCodes : InflateM (PrefixCode × PrefixCode) := do
  let literalCount := 257 + (← bits 5)
  let distanceCount := 1 + (← bits 5)
  let orderCount := 4 + (← bits 4)
  if maxLiterals < literalCount ∨ maxDistances < distanceCount then failure
  let code ← codeOf (← orderedLengths orderCount)
  let wanted := literalCount + distanceCount
  let lengths ← codeLengths code wanted [] (wanted + 1)
  return (← codeOf (lengths.take literalCount), ← codeOf (lengths.drop literalCount))

def fixedCodes : InflateM (PrefixCode × PrefixCode) :=
  return (← codeOf fixedLiteralLengths, ← codeOf fixedDistanceLengths)

def block : InflateM Bool := do
  let last ← bit
  let limit := 8 * (← get).input.size + 1
  match ← bits 2 with
  | 0 => storedBlock
  | 1 =>
      let (literals, distances) ← fixedCodes
      codedBlock literals distances limit
  | 2 =>
      let (literals, distances) ← ownCodes
      codedBlock literals distances limit
  | _ => failure
  return last = 1

def blocks : Nat → InflateM Unit
  | 0 => failure
  | count + 1 => do
      if ← block then
        return ()
      blocks count

end Inflater

/-- Inflated form of compressed data.  What stands behind the last block does not count. -/
def inflate (data : Array UInt8) : Except FileFault (List UInt8) :=
  match (Inflater.blocks (8 * data.size + 1)).run ⟨data, 0, #[]⟩ with
  | some ((), s) => .ok s.output.toList
  | none => .error .corruptStream

end Archive
end Bytecode
