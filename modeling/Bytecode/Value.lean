import Bytecode.Fault

/-!
# Values and slots

Values are what fields, array elements and calls exchange.  Operand stacks and local variables hold
them as slots of 32 bits or a reference: floating-point numbers by their word, wide values in two
slots with the high half first.
-/

namespace Bytecode

/-- Address of an object, none for the null reference. -/
abbrev Reference := Option Nat

inductive Value where
  | int (value : Int32)
  | long (value : Int64)
  | float (word : UInt32)
  | double (word : UInt64)
  | reference (target : Reference)
deriving DecidableEq

namespace Value

def kind : Value → Kind
  | int _ => .int
  | long _ => .long
  | float _ => .float
  | double _ => .double
  | reference _ => .reference

def zero : Kind → Value
  | .int => int 0
  | .long => long 0
  | .float => float 0
  | .double => double 0
  | .reference => reference none

/-- Value a variable of this type has before anything is stored. -/
def default (t : ValueType) : Value :=
  match t.kind? with
  | some k => zero k
  | none => reference none

def toReference : Value → Except Fault Reference
  | reference target => .ok target
  | other => .error (.illegal (.wrongKind .reference other.kind))

def toInt : Value → Except Fault Int32
  | int value => .ok value
  | other => .error (.illegal (.wrongKind .int other.kind))

end Value

/-- A cell of an operand stack or of the local variables. -/
inductive Slot where
  | int (value : Int32)
  | reference (target : Reference)
deriving DecidableEq

namespace Slot

def toInt : Slot → Except Fault Int32
  | int value => .ok value
  | reference _ => .error (.illegal .primitiveExpected)

def toReference : Slot → Except Fault Reference
  | reference target => .ok target
  | int _ => .error (.illegal .referenceExpected)

def high (value : Int64) : Int32 :=
  (value >>> 32).toInt32

def low (value : Int64) : Int32 :=
  value.toInt32

def join (high low : Int32) : Int64 :=
  (high.toInt64 <<< 32) ||| low.toUInt32.toUInt64.toInt64

end Slot

namespace Value

/-- Slots of a value, in the order in which they are pushed. -/
def slots : Value → List Slot
  | int value => [.int value]
  | long value => [.int (Slot.high value), .int (Slot.low value)]
  | float word => [.int word.toInt32]
  | double word => [.int (Slot.high word.toInt64), .int (Slot.low word.toInt64)]
  | reference target => [.reference target]

end Value
end Bytecode
