import Bytecode.Value

/-!
# Operand stacks

The working stack of one method call.  An operation that fails keeps what it popped before.
-/

namespace Bytecode

/-- Slots of an operand stack, the top first. -/
structure OperandStack where
  slots : List Slot
deriving DecidableEq, Inhabited

abbrev StackM := EStateM Fault OperandStack

namespace OperandStack

def empty : OperandStack := ⟨[]⟩

def size (s : OperandStack) : Nat :=
  s.slots.length

def isEmpty (s : OperandStack) : Bool :=
  s.slots.isEmpty

def toList (s : OperandStack) : List Slot :=
  s.slots.reverse

def cons (slot : Slot) (s : OperandStack) : OperandStack :=
  ⟨slot :: s.slots⟩

def append (s : OperandStack) (value : Value) : OperandStack :=
  ⟨value.slots.reverse ++ s.slots⟩

def ofValues (values : List Value) : OperandStack :=
  values.foldl append empty

/-!
# Single slots
-/

def clear : StackM Unit :=
  set empty

def push (slot : Slot) : StackM Unit :=
  modify (cons slot)

def pop : StackM Slot := do
  match (← get).slots with
  | [] => throw (.illegal .stackUnderflow)
  | slot :: rest =>
      set (OperandStack.mk rest)
      return slot

/-- The slot `depth` places below the top. -/
def peek (depth : Nat) : StackM Slot := do
  match (← get).slots[depth]? with
  | none => throw (.illegal .stackUnderflow)
  | some slot => return slot

/-- Removes the top `count` slots and returns them from the bottom up. -/
def popSlots (count : Nat) : StackM (List Slot) := do
  let s ← get
  if s.size < count then throw (.illegal .stackUnderflow)
  set (OperandStack.mk (s.slots.drop count))
  return (s.slots.take count).reverse

/-!
# Values
-/

def pushInt (value : Int32) : StackM Unit :=
  push (.int value)

def popInt : StackM Int32 := do
  match (← pop).toInt with
  | .ok value => return value
  | .error e => throw e

def pushFloat (word : UInt32) : StackM Unit :=
  pushInt word.toInt32

def popFloat : StackM UInt32 := do
  return (← popInt).toUInt32

def pushLong (value : Int64) : StackM Unit := do
  pushInt (Slot.high value)
  pushInt (Slot.low value)

def popLong : StackM Int64 := do
  let low ← popInt
  let high ← popInt
  return Slot.join high low

def pushDouble (word : UInt64) : StackM Unit :=
  pushLong word.toInt64

def popDouble : StackM UInt64 := do
  return (← popLong).toUInt64

def pushReference (target : Reference) : StackM Unit :=
  push (.reference target)

def popReference : StackM Reference := do
  match (← pop).toReference with
  | .ok target => return target
  | .error e => throw e

def pushValue : Value → StackM Unit
  | .int value => pushInt value
  | .long value => pushLong value
  | .float word => pushFloat word
  | .double word => pushDouble word
  | .reference target => pushReference target

def popKind : Kind → StackM Value
  | .int => .int <$> popInt
  | .long => .long <$> popLong
  | .float => .float <$> popFloat
  | .double => .double <$> popDouble
  | .reference => .reference <$> popReference

/-- Pops a value of a type; there is none of type `void`. -/
def popValue (t : ValueType) : StackM Value :=
  match t.kind? with
  | some k => popKind k
  | none => throw (.illegal .voidPop)

/-- Pops a reference that must lead to an object. -/
def popObject (use : String) : StackM Nat := do
  match ← popReference with
  | some address => return address
  | none => throw (.nullReference use)

/-!
# Shuffles

Each is described by the slots on top before and after, the top at the right.
-/

def dup : StackM Unit := do
  push (← peek 0)

/-- `b a` becomes `a b a`. -/
def dupX1 : StackM Unit := do
  let a ← pop
  let b ← pop
  push a; push b; push a

/-- `c b a` becomes `a c b a`. -/
def dupX2 : StackM Unit := do
  let a ← pop
  let b ← pop
  let c ← pop
  push a; push c; push b; push a

/-- `b a` becomes `b a b a`. -/
def dup2 : StackM Unit := do
  let a ← peek 0
  let b ← peek 1
  push b; push a

/-- `c b a` becomes `b a c b a`. -/
def dup2X1 : StackM Unit := do
  let a ← pop
  let b ← pop
  let c ← pop
  push b; push a; push c; push b; push a

/-- `d c b a` becomes `b a d c b a`. -/
def dup2X2 : StackM Unit := do
  let a ← pop
  let b ← pop
  let c ← pop
  let d ← pop
  push b; push a; push d; push c; push b; push a

def swap : StackM Unit := do
  let a ← pop
  let b ← pop
  push a; push b

end OperandStack
end Bytecode
