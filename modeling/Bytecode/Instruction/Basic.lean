import Bytecode.Descriptor.Element
import Bytecode.Value

/-!
# Instructions

Instructions by what they do.  Several encodings of one effect are one instruction: a constant is
pushed the same way whether it was spelled by a code of its own or by operand bytes.
-/

namespace Bytecode

inductive Shuffle where
  | pop
  | pop2
  | dup
  | dupX1
  | dupX2
  | dup2
  | dup2X1
  | dup2X2
  | swap
deriving DecidableEq

inductive IntegerOp where
  | add
  | sub
  | mul
  | div
  | rem
  | and
  | or
  | xor
deriving DecidableEq

inductive ShiftOp where
  | left
  | right
  | unsignedRight
deriving DecidableEq

inductive FloatOp where
  | add
  | sub
  | mul
  | div
  | rem
deriving DecidableEq

inductive Number where
  | int
  | long
  | float
  | double
deriving DecidableEq

inductive Conversion where
  | between (source target : Number)
  | intToByte
  | intToChar
  | intToShort
deriving DecidableEq

inductive Condition where
  | eq
  | ne
  | lt
  | ge
  | gt
  | le
deriving DecidableEq

namespace Condition

def holds : Condition → Ordering → Bool
  | eq, o => o == .eq
  | ne, o => o != .eq
  | lt, o => o == .lt
  | ge, o => o != .lt
  | gt, o => o == .gt
  | le, o => o != .gt

end Condition

/-- A decoded instruction.  Offsets are relative to its own address; numbers of type `UInt16` are
indices into the constant table. -/
inductive Instruction where
  | nop
  | push (value : Value)
  | pushConstant (index : UInt16)
  | load (kind : Kind) (index : Nat)
  | store (kind : Kind) (index : Nat)
  | increment (index : Nat) (delta : Int32)
  | arrayLoad
  | arrayStore (kind : Kind)
  | shuffle (move : Shuffle)
  | intOp (op : IntegerOp)
  | longOp (op : IntegerOp)
  | intShift (op : ShiftOp)
  | longShift (op : ShiftOp)
  | floatOp (op : FloatOp)
  | doubleOp (op : FloatOp)
  | negate (number : Number)
  | convert (conversion : Conversion)
  | compareLong
  /-- Pushes `unordered` when an operand is not a number. -/
  | compareFloat (unordered : Int32)
  | compareDouble (unordered : Int32)
  | branchZero (condition : Condition) (offset : Int32)
  | branchInt (condition : Condition) (offset : Int32)
  | branchSame (same : Bool) (offset : Int32)
  | branchNull (null : Bool) (offset : Int32)
  | jump (offset : Int32)
  | tableSwitch (default low high : Int32) (offsets : List Int32)
  /-- The table is looked at only after the key is popped, so a table that cannot be read is part
  of the instruction. -/
  | lookupSwitch (default : Int32) (table : Option (List (Int32 × Int32)))
  | returnValue (kind : Kind)
  | returnVoid
  | getStatic (index : UInt16)
  | putStatic (index : UInt16)
  | getField (index : UInt16)
  | putField (index : UInt16)
  | invokeVirtual (index : UInt16)
  | invokeSpecial (index : UInt16)
  | invokeStatic (index : UInt16)
  | invokeInterface (index : UInt16)
  | new (index : UInt16)
  | newArray (element : Element)
  | newReferenceArray (index : UInt16)
  | newMultiArray (index : UInt16) (dimensions : Nat)
  | arrayLength
  | throw
  | checkCast (index : UInt16)
  | instanceOf (index : UInt16)
deriving DecidableEq

end Bytecode
