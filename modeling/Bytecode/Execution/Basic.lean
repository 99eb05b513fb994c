import Bytecode.Frame.Basic
import Bytecode.Native.Basic

/-!
# Execution of single instructions

An instruction works on the frame of the running method and on the machine; it never sees the
frames below.  What it asks of them is its effect.
-/

namespace Bytecode

/-- The running frame and the machine. -/
structure Activation where
  frame : Frame
  machine : Machine

abbrev Exec := EStateM Halt Activation

/-- What an executed instruction asks of the call stack. -/
inductive Effect where
  | next
  | call (m : Method)
  | ret (value : Option Value)
  | throw (exception : Nat)

namespace Activation

def onStack (x : StackM α) : Exec α := fun ⟨frame, machine⟩ =>
  match x frame.stack with
  | .ok a stack => .ok a ⟨{ frame with stack }, machine⟩
  | .error f stack => .error (.fault f) ⟨{ frame with stack }, machine⟩

def onMachine (x : MachineM α) : Exec α := fun ⟨frame, machine⟩ =>
  match x machine with
  | .ok a machine => .ok a ⟨frame, machine⟩
  | .error e machine => .error e ⟨frame, machine⟩

def onWorkspace (x : NativeM α) : Exec α := fun ⟨frame, machine⟩ =>
  match x ⟨frame.stack, machine⟩ with
  | .ok a ⟨stack, machine⟩ => .ok a ⟨{ frame with stack }, machine⟩
  | .error e ⟨stack, machine⟩ => .error e ⟨{ frame with stack }, machine⟩

end Activation

instance : MonadLift StackM Exec where
  monadLift := Activation.onStack

instance : MonadLift MachineM Exec where
  monadLift := Activation.onMachine

instance : MonadLift NativeM Exec where
  monadLift := Activation.onWorkspace

namespace Exec

def frame : Exec Frame := do
  return (← get).frame

def setLocals (locals : Locals) : Exec Unit :=
  modify fun a => { a with frame := { a.frame with locals } }

def jump (offset : Int32) : Exec Unit := do
  let a ← get
  let frame ← a.frame.jump offset
  set { a with frame }

end Exec
end Bytecode
