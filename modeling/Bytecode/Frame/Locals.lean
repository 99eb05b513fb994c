import Bytecode.Value

/-!
# Local variables

Numbered slots of one method call.  A wide value takes the slot of its index and the next one; it
is stored only if both exist.
-/

namespace Bytecode

structure Locals where
  slots : Array Slot
deriving DecidableEq, Inhabited

namespace Locals

def zeroed (count : Nat) : Locals :=
  ⟨Array.replicate count (.int 0)⟩

def size (l : Locals) : Nat :=
  l.slots.size

def outOfRange (l : Locals) (index : Nat) : Fault :=
  .malformed (.localOutOfRange index l.size)

def get (l : Locals) (index : Nat) : Except Fault Slot :=
  match l.slots[index]? with
  | some slot => .ok slot
  | none => .error (l.outOfRange index)

def set (l : Locals) (index : Nat) (slot : Slot) : Except Fault Locals :=
  if h : index < l.slots.size then .ok ⟨l.slots.set index slot h⟩ else .error (l.outOfRange index)

def getInt (l : Locals) (index : Nat) : Except Fault Int32 := do
  (← l.get index).toInt

def setInt (l : Locals) (index : Nat) (value : Int32) : Except Fault Locals :=
  l.set index (.int value)

def getFloat (l : Locals) (index : Nat) : Except Fault UInt32 := do
  return (← l.getInt index).toUInt32

def setFloat (l : Locals) (index : Nat) (word : UInt32) : Except Fault Locals :=
  l.setInt index word.toInt32

def getLong (l : Locals) (index : Nat) : Except Fault Int64 := do
  let high ← l.getInt index
  let low ← l.getInt (index + 1)
  return Slot.join high low

def setLong (l : Locals) (index : Nat) (value : Int64) : Except Fault Locals :=
  if l.size ≤ index + 1 then .error (l.outOfRange (index + 1))
  else do
    let l ← l.setInt index (Slot.high value)
    l.setInt (index + 1) (Slot.low value)

def getDouble (l : Locals) (index : Nat) : Except Fault UInt64 := do
  return (← l.getLong index).toUInt64

def setDouble (l : Locals) (index : Nat) (word : UInt64) : Except Fault Locals :=
  l.setLong index word.toInt64

def getReference (l : Locals) (index : Nat) : Except Fault Reference := do
  (← l.get index).toReference

def setReference (l : Locals) (index : Nat) (target : Reference) : Except Fault Locals :=
  l.set index (.reference target)

def read (l : Locals) (kind : Kind) (index : Nat) : Except Fault Value :=
  match kind with
  | .int => .int <$> l.getInt index
  | .long => .long <$> l.getLong index
  | .float => .float <$> l.getFloat index
  | .double => .double <$> l.getDouble index
  | .reference => .reference <$> l.getReference index

def write (l : Locals) (index : Nat) : Value → Except Fault Locals
  | .int value => l.setInt index value
  | .long value => l.setLong index value
  | .float word => l.setFloat index word
  | .double word => l.setDouble index word
  | .reference target => l.setReference index target

/-- Variables of a call: the arguments in order, then zeros up to `count`. -/
def ofArguments (count : Nat) (arguments : List Slot) : Locals :=
  ⟨(arguments ++ List.replicate (count - arguments.length) (Slot.int 0)).toArray⟩

end Locals
end Bytecode
