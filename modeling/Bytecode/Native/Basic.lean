import Bytecode.Frame.OperandStack
import Bytecode.Machine.Resolution

/-!
# Native methods

A native method works on the operand stack of its caller: it pops its arguments, the receiver last,
and pushes its result.
-/

namespace Bytecode

/-- What a native method can change. -/
structure Workspace where
  stack : OperandStack
  machine : Machine

abbrev NativeM := EStateM Halt Workspace

namespace Workspace

def onStack (x : StackM α) : NativeM α := fun ⟨stack, machine⟩ =>
  match x stack with
  | .ok a stack => .ok a ⟨stack, machine⟩
  | .error f stack => .error (.fault f) ⟨stack, machine⟩

def onMachine (x : MachineM α) : NativeM α := fun ⟨stack, machine⟩ =>
  match x machine with
  | .ok a machine => .ok a ⟨stack, machine⟩
  | .error e machine => .error e ⟨stack, machine⟩

end Workspace

instance : MonadLift StackM NativeM where
  monadLift := Workspace.onStack

instance : MonadLift MachineM NativeM where
  monadLift := Workspace.onMachine

abbrev Native := Loader → NativeM Unit

abbrev NativeTable := List ((String × String) × Native)

namespace NativeTable

/-- The table with one more entry, which hides an earlier one of the same name. -/
def register (t : NativeTable) (owner method : String) (native : Native) : NativeTable :=
  ((owner, method), native) :: t

def find? (t : NativeTable) (owner method : String) : Option Native :=
  t.lookup (owner, method)

def contains (t : NativeTable) (owner method : String) : Bool :=
  (t.find? owner method).isSome

/-- Calls a native method.  Methods named `registerNatives` do nothing. -/
def call (t : NativeTable) (load : Loader) (m : Method) : NativeM Unit :=
  if m.name = "registerNatives" then
    return ()
  else
    match t.find? m.owner m.name with
    | some native => native load
    | none => fail (.noNative m.owner m.name)

end NativeTable
end Bytecode
