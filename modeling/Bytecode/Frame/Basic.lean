import Bytecode.Frame.Locals
import Bytecode.Frame.OperandStack
import Bytecode.Machine.Resolution

/-!
# Frames

State of one method call.
-/

namespace Bytecode

structure Frame where
  method : Method
  /-- The class that declares the method. -/
  cls : Class
  pool : ClassPool
  stack : OperandStack
  locals : Locals
  /-- Address of the next instruction. -/
  pc : Nat
  /-- Address of the instruction being executed. -/
  current : Nat

namespace Frame

def enter (method : Method) (cls : Class) (pool : ClassPool) (arguments : List Slot) : Frame :=
  ⟨method, cls, pool, .empty, .ofArguments method.maxLocals.toNat arguments, 0, 0⟩

/-- The frame after a branch relative to the current instruction, which must stay in the code. -/
def jump (f : Frame) (offset : Int32) : Except Fault Frame :=
  let target : Int := f.current + offset.toInt
  if target < 0 ∨ f.method.code.size ≤ target.toNat then
    .error (.malformed (.branchLeaves f.current offset f.method.label))
  else
    .ok { f with pc := target.toNat }

def traceLine (f : Frame) : String :=
  "    at " ++ f.method.label ++ " (pc " ++ toString f.current ++ ")"

end Frame
end Bytecode
