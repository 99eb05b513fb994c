import Bytecode.Execution.Basic
import Bytecode.FloatingPoint.Conversion
import Bytecode.Instruction.Basic

/-!
# Arithmetic

Meaning of the instructions that compute with numbers.  Integers wrap, division truncates toward
zero and fails only for a zero divisor.
-/

namespace Bytecode

open OperandStack

namespace IntegerOp

def onInt : IntegerOp → Int32 → Int32 → Except Fault Int32
  | add, a, b => .ok (a + b)
  | sub, a, b => .ok (a - b)
  | mul, a, b => .ok (a * b)
  | div, a, b => if b = 0 then .error (.zeroDivisor .quotient) else .ok (a / b)
  | rem, a, b => if b = 0 then .error (.zeroDivisor .remainder) else .ok (a % b)
  | and, a, b => .ok (a &&& b)
  | or, a, b => .ok (a ||| b)
  | xor, a, b => .ok (a ^^^ b)

def onLong : IntegerOp → Int64 → Int64 → Except Fault Int64
  | add, a, b => .ok (a + b)
  | sub, a, b => .ok (a - b)
  | mul, a, b => .ok (a * b)
  | div, a, b => if b = 0 then .error (.zeroDivisor .quotient) else .ok (a / b)
  | rem, a, b => if b = 0 then .error (.zeroDivisor .remainder) else .ok (a % b)
  | and, a, b => .ok (a &&& b)
  | or, a, b => .ok (a ||| b)
  | xor, a, b => .ok (a ^^^ b)

end IntegerOp

namespace ShiftOp

/-- Only the low five bits of the count matter. -/
def onInt (op : ShiftOp) (a count : Int32) : Int32 :=
  let n := count &&& 0x1F
  match op with
  | left => a <<< n
  | right => a >>> n
  | unsignedRight => (a.toUInt32 >>> n.toUInt32).toInt32

def onLong (op : ShiftOp) (a : Int64) (count : Int32) : Int64 :=
  let n := (count &&& 0x3F).toInt64
  match op with
  | left => a <<< n
  | right => a >>> n
  | unsignedRight => (a.toUInt64 >>> n.toUInt64).toInt64

end ShiftOp

namespace FloatOp

open FloatingPoint

def onFloat : FloatOp → UInt32 → UInt32 → UInt32
  | add => Single.add
  | sub => Single.sub
  | mul => Single.mul
  | div => Single.div
  | rem => Single.rem

def onDouble : FloatOp → UInt64 → UInt64 → UInt64
  | add => Double.add
  | sub => Double.sub
  | mul => Double.mul
  | div => Double.div
  | rem => Double.rem

end FloatOp

namespace Number

def kind : Number → Kind
  | int => .int
  | long => .long
  | float => .float
  | double => .double

def negate : Number → StackM Unit
  | int => do pushInt (-(← popInt))
  | long => do pushLong (-(← popLong))
  | float => do pushFloat (FloatingPoint.Single.negate (← popFloat))
  | double => do pushDouble (FloatingPoint.Double.negate (← popDouble))

end Number

namespace Conversion

open FloatingPoint

def apply : Conversion → StackM Unit
  | between .int .long => do pushLong (← popInt).toInt64
  | between .int .float => do pushFloat (Single.ofInt (← popInt).toInt)
  | between .int .double => do pushDouble (Double.ofInt (← popInt).toInt)
  | between .long .int => do pushInt (← popLong).toInt32
  | between .long .float => do pushFloat (Single.ofInt (← popLong).toInt)
  | between .long .double => do pushDouble (Double.ofInt (← popLong).toInt)
  | between .float .int => do pushInt (Single.toInt32 (← popFloat))
  | between .float .long => do pushLong (Single.toInt64 (← popFloat))
  | between .float .double => do pushDouble (Single.toDouble (← popFloat))
  | between .double .int => do pushInt (Double.toInt32 (← popDouble))
  | between .double .long => do pushLong (Double.toInt64 (← popDouble))
  | between .double .float => do pushFloat (Double.toSingle (← popDouble))
  | between .int .int => do pushInt (← popInt)
  | between .long .long => do pushLong (← popLong)
  | between .float .float => do pushFloat (← popFloat)
  | between .double .double => do pushDouble (← popDouble)
  | intToByte => do pushInt (← popInt).toInt8.toInt32
  | intToChar => do pushInt ((← popInt).toUInt32 &&& 0xFFFF).toInt32
  | intToShort => do pushInt (← popInt).toInt16.toInt32

end Conversion

namespace Shuffle

def apply : Shuffle → StackM Unit
  | pop => do let _ ← OperandStack.pop
  | pop2 => do let _ ← popSlots 2
  | dup => OperandStack.dup
  | dupX1 => OperandStack.dupX1
  | dupX2 => OperandStack.dupX2
  | dup2 => OperandStack.dup2
  | dup2X1 => OperandStack.dup2X1
  | dup2X2 => OperandStack.dup2X2
  | swap => OperandStack.swap

end Shuffle

/-!
# Comparisons
-/

/-- Number of an order: negative, zero or positive. -/
def orderCode : Ordering → Int32
  | .lt => -1
  | .eq => 0
  | .gt => 1

def orderCodeOr (unordered : Int32) : Option Ordering → Int32
  | some o => orderCode o
  | none => unordered

def compareInt (a b : Int32) : Ordering :=
  compare a.toInt b.toInt

def compareLong (a b : Int64) : Ordering :=
  compare a.toInt b.toInt

/-!
# Stack forms
-/

namespace IntegerOp

def applyInt (op : IntegerOp) : StackM Unit := do
  let b ← popInt
  let a ← popInt
  match op.onInt a b with
  | .ok value => pushInt value
  | .error f => throw f

def applyLong (op : IntegerOp) : StackM Unit := do
  let b ← popLong
  let a ← popLong
  match op.onLong a b with
  | .ok value => pushLong value
  | .error f => throw f

end IntegerOp

namespace ShiftOp

def applyInt (op : ShiftOp) : StackM Unit := do
  let count ← popInt
  let a ← popInt
  pushInt (op.onInt a count)

def applyLong (op : ShiftOp) : StackM Unit := do
  let count ← popInt
  let a ← popLong
  pushLong (op.onLong a count)

end ShiftOp

namespace FloatOp

def applyFloat (op : FloatOp) : StackM Unit := do
  let b ← popFloat
  let a ← popFloat
  pushFloat (op.onFloat a b)

def applyDouble (op : FloatOp) : StackM Unit := do
  let b ← popDouble
  let a ← popDouble
  pushDouble (op.onDouble a b)

end FloatOp

namespace OperandStack

def compareLongs : StackM Unit := do
  let b ← popLong
  let a ← popLong
  pushInt (orderCode (compareLong a b))

def compareFloats (unordered : Int32) : StackM Unit := do
  let b ← popFloat
  let a ← popFloat
  pushInt (orderCodeOr unordered (FloatingPoint.Single.compare? a b))

def compareDoubles (unordered : Int32) : StackM Unit := do
  let b ← popDouble
  let a ← popDouble
  pushInt (orderCodeOr unordered (FloatingPoint.Double.compare? a b))

end OperandStack
end Bytecode
