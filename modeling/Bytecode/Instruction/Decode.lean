import Bytecode.Instruction.Basic
import Bytecode.Opcode

/-!
# Decoding

The instruction at an address of a method's code, and the address after it.  Decoding looks at the
code only: it fails when the code ends inside an instruction or when no instruction has the code
that stands there.
-/

namespace Bytecode

inductive DecodeError where
  | codeEnds
  | unsupported (opcode : UInt8)
  | badElementCode (code : UInt8)
  | negativePairs (count : Int32)
  | missingZeroByte
deriving DecidableEq

/-- Decoders move an address over the code. -/
abbrev Decoder := ReaderT (Array UInt8) (StateT Nat (Except DecodeError))

namespace Decoder

/-!
# Operands
-/

def u8 : Decoder UInt8 := do
  let address ← get
  match (← read)[address]? with
  | some byte =>
      set (address + 1)
      return byte
  | none => throw .codeEnds

def u16 : Decoder UInt16 := do
  let a ← u8
  let b ← u8
  return (a.toUInt16 <<< 8) ||| b.toUInt16

def i8 : Decoder Int32 := do
  return (← u8).toInt8.toInt32

def i16 : Decoder Int32 := do
  return (← u16).toInt16.toInt32

def i32 : Decoder Int32 := do
  let a ← u16
  let b ← u16
  return ((a.toUInt32 <<< 16) ||| b.toUInt32).toInt32

def align : Decoder Unit :=
  modify fun address => (address + 3) / 4 * 4

def kindAt : Nat → Kind
  | 0 => .int
  | 1 => .long
  | 2 => .float
  | 3 => .double
  | _ => .reference

def numberAt : Nat → Number
  | 0 => .int
  | 1 => .long
  | 2 => .float
  | _ => .double

def conditionAt : Nat → Condition
  | 0 => .eq
  | 1 => .ne
  | 2 => .lt
  | 3 => .ge
  | 4 => .gt
  | _ => .le

/-!
# Switches
-/

def offsets : Nat → Decoder (List Int32)
  | 0 => return []
  | count + 1 => do
      let first ← i32
      let rest ← offsets count
      return first :: rest

def tableSwitch : Decoder Instruction := do
  align
  let default ← i32
  let low ← i32
  let high ← i32
  return .tableSwitch default low high (← offsets (high.toInt - low.toInt + 1).toNat)

def pairs : Nat → Decoder (List (Int32 × Int32))
  | 0 => return []
  | count + 1 => do
      let key ← i32
      let offset ← i32
      let rest ← pairs count
      return (key, offset) :: rest

def lookupSwitch : Decoder Instruction := do
  align
  let default ← i32
  let count ← i32
  if count < 0 then throw (.negativePairs count)
  -- a table that is cut off is an error only once the key has been popped
  let table ← tryCatch (some <$> pairs count.toInt.toNat) fun _ => return none
  return .lookupSwitch default table

/-!
# Groups of codes
-/

/-- Codes `0x00` to `0x14`. -/
def constant (opcode : UInt8) : Decoder Instruction := do
  match opcode.toNat with
  | 0x00 => return .nop
  | 0x01 => return .push (.reference none)
  | 0x02 => return .push (.int (-1))
  | 0x03 => return .push (.int 0)
  | 0x04 => return .push (.int 1)
  | 0x05 => return .push (.int 2)
  | 0x06 => return .push (.int 3)
  | 0x07 => return .push (.int 4)
  | 0x08 => return .push (.int 5)
  | 0x09 => return .push (.long 0)
  | 0x0A => return .push (.long 1)
  | 0x0B => return .push (.float 0x00000000)
  | 0x0C => return .push (.float 0x3F800000)
  | 0x0D => return .push (.float 0x40000000)
  | 0x0E => return .push (.double 0x0000000000000000)
  | 0x0F => return .push (.double 0x3FF0000000000000)
  | 0x10 => return .push (.int (← i8))
  | 0x11 => return .push (.int (← i16))
  | 0x12 => return .pushConstant (← u8).toUInt16
  | 0x13 => return .pushConstant (← u16)
  | 0x14 => return .pushConstant (← u16)
  | _ => throw (.unsupported opcode)

/-- A code modified by `wide`: the index has two bytes. -/
def wide : Decoder Instruction := do
  let opcode ← u8
  let index := (← u16).toNat
  let code := opcode.toNat
  if 0x15 ≤ code ∧ code ≤ 0x19 then
    return .load (kindAt (code - 0x15)) index
  else if 0x36 ≤ code ∧ code ≤ 0x3A then
    return .store (kindAt (code - 0x36)) index
  else if code = 0x84 then
    return .increment index (← i16)
  else
    throw (.unsupported opcode)

/-- Codes `0x57` to `0x5F`. -/
def shuffleAt : Nat → Shuffle
  | 0 => .pop
  | 1 => .pop2
  | 2 => .dup
  | 3 => .dupX1
  | 4 => .dupX2
  | 5 => .dup2
  | 6 => .dup2X1
  | 7 => .dup2X2
  | _ => .swap

def arithmetic (integer : IntegerOp) (float : FloatOp) : Number → Instruction
  | .int => .intOp integer
  | .long => .longOp integer
  | .float => .floatOp float
  | .double => .doubleOp float

def integral (op : IntegerOp) (position : Nat) : Instruction :=
  if position = 0 then .intOp op else .longOp op

def shift (op : ShiftOp) (position : Nat) : Instruction :=
  if position = 0 then .intShift op else .longShift op

/-- Codes `0x60` to `0x83`, numbered from zero. -/
def arithmeticAt (code : Nat) : Instruction :=
  match code / 4 with
  | 0 => arithmetic .add .add (numberAt (code % 4))
  | 1 => arithmetic .sub .sub (numberAt (code % 4))
  | 2 => arithmetic .mul .mul (numberAt (code % 4))
  | 3 => arithmetic .div .div (numberAt (code % 4))
  | 4 => arithmetic .rem .rem (numberAt (code % 4))
  | 5 => .negate (numberAt (code % 4))
  | _ =>
      match (code - 24) / 2 with
      | 0 => shift .left (code % 2)
      | 1 => shift .right (code % 2)
      | 2 => shift .unsignedRight (code % 2)
      | 3 => integral .and (code % 2)
      | 4 => integral .or (code % 2)
      | _ => integral .xor (code % 2)

/-- Codes `0x85` to `0x93`, numbered from zero. -/
def conversionAt : Nat → Conversion
  | 0 => .between .int .long
  | 1 => .between .int .float
  | 2 => .between .int .double
  | 3 => .between .long .int
  | 4 => .between .long .float
  | 5 => .between .long .double
  | 6 => .between .float .int
  | 7 => .between .float .long
  | 8 => .between .float .double
  | 9 => .between .double .int
  | 10 => .between .double .long
  | 11 => .between .double .float
  | 12 => .intToByte
  | 13 => .intToChar
  | _ => .intToShort

def elementKindAt : Nat → Kind
  | 1 => .long
  | 2 => .float
  | 3 => .double
  | 4 => .reference
  | _ => .int

/-- Codes from `0x94` on. -/
def control (opcode : UInt8) : Decoder Instruction := do
  let code := opcode.toNat
  if 0x99 ≤ code ∧ code ≤ 0x9E then
    return .branchZero (conditionAt (code - 0x99)) (← i16)
  else if 0x9F ≤ code ∧ code ≤ 0xA4 then
    return .branchInt (conditionAt (code - 0x9F)) (← i16)
  else if 0xAC ≤ code ∧ code ≤ 0xB0 then
    return .returnValue (kindAt (code - 0xAC))
  else
    match code with
    | 0x94 => return .compareLong
    | 0x95 => return .compareFloat (-1)
    | 0x96 => return .compareFloat 1
    | 0x97 => return .compareDouble (-1)
    | 0x98 => return .compareDouble 1
    | 0xA5 => return .branchSame true (← i16)
    | 0xA6 => return .branchSame false (← i16)
    | 0xA7 => return .jump (← i16)
    | 0xAA => tableSwitch
    | 0xAB => lookupSwitch
    | 0xB1 => return .returnVoid
    | 0xB2 => return .getStatic (← u16)
    | 0xB3 => return .putStatic (← u16)
    | 0xB4 => return .getField (← u16)
    | 0xB5 => return .putField (← u16)
    | 0xB6 => return .invokeVirtual (← u16)
    | 0xB7 => return .invokeSpecial (← u16)
    | 0xB8 => return .invokeStatic (← u16)
    | 0xB9 =>
        let index ← u16
        -- the count of arguments is told by the descriptor as well
        let _ ← u8
        let zero ← u8
        if zero ≠ 0 then throw .missingZeroByte
        return .invokeInterface index
    | 0xBB => return .new (← u16)
    | 0xBC =>
        let elementCode ← u8
        match Element.ofCode elementCode with
        | .ok element => return .newArray element
        | .error _ => throw (.badElementCode elementCode)
    | 0xBD => return .newReferenceArray (← u16)
    | 0xBE => return .arrayLength
    | 0xBF => return .throw
    | 0xC0 => return .checkCast (← u16)
    | 0xC1 => return .instanceOf (← u16)
    | 0xC4 => wide
    | 0xC5 => return .newMultiArray (← u16) (← u8).toNat
    | 0xC6 => return .branchNull true (← i16)
    | 0xC7 => return .branchNull false (← i16)
    | 0xC8 => return .jump (← i32)
    | _ => throw (.unsupported opcode)

def instruction (opcode : UInt8) : Decoder Instruction := do
  let code := opcode.toNat
  if code ≤ 0x14 then
    constant opcode
  else if code ≤ 0x19 then
    return .load (kindAt (code - 0x15)) (← u8).toNat
  else if code ≤ 0x2D then
    return .load (kindAt ((code - 0x1A) / 4)) ((code - 0x1A) % 4)
  else if code ≤ 0x35 then
    return .arrayLoad
  else if code ≤ 0x3A then
    return .store (kindAt (code - 0x36)) (← u8).toNat
  else if code ≤ 0x4E then
    return .store (kindAt ((code - 0x3B) / 4)) ((code - 0x3B) % 4)
  else if code ≤ 0x56 then
    return .arrayStore (elementKindAt (code - 0x4F))
  else if code ≤ 0x5F then
    return .shuffle (shuffleAt (code - 0x57))
  else if code ≤ 0x83 then
    return arithmeticAt (code - 0x60)
  else if code = 0x84 then
    return .increment (← u8).toNat (← i8)
  else if code ≤ 0x93 then
    return .convert (conversionAt (code - 0x85))
  else
    control opcode

end Decoder

namespace Instruction

/-- The instruction whose operation code is `opcode` and whose operands start at `address`, and the
address after it. -/
def decode (code : Array UInt8) (opcode : UInt8) (address : Nat) :
    Except DecodeError (Instruction × Nat) :=
  ((Decoder.instruction opcode).run code).run address

end Instruction
end Bytecode
