import Bytecode.Execution.Instruction
import Bytecode.Machine.Loading

/-!
# Threads

A run of the machine: the stack of frames, the innermost first, and the value returned by the
outermost of them.  A run owns the frames above `base`; the others belong to somebody else.
-/

namespace Bytecode

/-- What runs need from their surroundings. -/
structure Host where
  path : ClassPath
  natives : NativeTable
  maxDepth : Nat
  /-- Every instruction is noted in the log. -/
  tracing : Bool

structure Thread where
  machine : Machine
  frames : List Frame
  result : Option Value

abbrev ThreadM := EStateM Halt Thread

namespace Thread

def onMachine (x : MachineM α) : ThreadM α := fun ⟨machine, frames, result⟩ =>
  match x machine with
  | .ok a machine => .ok a ⟨machine, frames, result⟩
  | .error e machine => .error e ⟨machine, frames, result⟩

end Thread

instance : MonadLift MachineM ThreadM where
  monadLift := Thread.onMachine

namespace Thread

def onFrame (x : Exec α) : ThreadM α := fun ⟨machine, frames, result⟩ =>
  match frames with
  | [] => .error (.fault (.illegal .noFrame)) ⟨machine, [], result⟩
  | frame :: rest =>
      match x ⟨frame, machine⟩ with
      | .ok a ⟨frame, machine⟩ => .ok a ⟨machine, frame :: rest, result⟩
      | .error e ⟨frame, machine⟩ => .error e ⟨machine, frame :: rest, result⟩

/-!
# Calls
-/

def frameFor (m : Machine) (method : Method) (arguments : List Slot) : Except Fault Frame :=
  match m.class? method.owner with
  | none => .error (.illegal (.discarded method.owner method.name))
  | some cls =>
      match m.pool? cls.name with
      | none => .error (.illegal (.noPool cls.name))
      | some pool => .ok (.enter method cls ⟨cls.name, pool⟩ arguments)

def pushFrame (host : Host) (method : Method) (arguments : List Slot) : ThreadM Unit := do
  let t ← get
  let frame ← frameFor t.machine method arguments
  if host.maxDepth ≤ t.frames.length then fail (.stackOverflow host.maxDepth)
  set { t with frames := frame :: t.frames }

/-- Carries out a call: a native method works on the stack of the caller, any other method gets a
frame of its own. -/
def dispatch (host : Host) (load : Loader) (method : Method) : ThreadM Unit := do
  if method.isNative then
    onFrame (host.natives.call load method : NativeM Unit)
  else if method.isAbstract then
    onFrame (illegal (.abstractMethod method.label))
  else
    let arguments ← onFrame (OperandStack.popSlots method.argumentSlots : StackM (List Slot))
    pushFrame host method arguments

/-- Ends the innermost call and hands its value to the caller, or out of the run. -/
def doReturn (base : Nat) (value : Option Value) : ThreadM Unit := do
  let t ← get
  match t.frames with
  | [] => illegal .emptyReturn
  | _ :: rest =>
      if rest.length = base then
        set { t with frames := rest, result := value }
      else
        set { t with frames := rest }
        match value with
        | some value => onFrame (OperandStack.pushValue value : StackM Unit)
        | none => return ()

/-!
# Exceptions
-/

def firstHandler (load : Loader) (f : Frame) (exception : Nat) :
    List Handler → MachineM (Option Nat)
  | [] => return none
  | h :: rest => do
      if h.covers f.current then
        -- without a type a handler takes every exception
        if h.catchType = 0 then
          return some h.target.toNat
        let name ← f.pool.className h.catchType
        if ← Machine.isInstanceOf load exception name then
          return some h.target.toNat
      firstHandler load f exception rest

def uncaught (m : Machine) (exception : Nat) : Fault :=
  let name := (m.objects[exception]?.map Object.className).getD ""
  let dotted := String.ofList (name.toList.map fun c => if c = '/' then '.' else c)
  .uncaught dotted ((m.detailMessage? exception).getD "")

/-- Drops frames of the run until one has a handler, and goes on there with the exception alone on
its stack. -/
def unwind (load : Loader) (base : Nat) (exception : Nat) : List Frame → ThreadM Unit
  | [] => do
      modify fun t => { t with frames := [] }
      fail (uncaught (← get).machine exception)
  | f :: rest => do
      modify fun t => { t with frames := f :: rest }
      if rest.length < base then
        fail (uncaught (← get).machine exception)
      match ← firstHandler load f exception f.method.handlers with
      | some target =>
          let stack := OperandStack.empty.append (.reference (some exception))
          modify fun t => { t with frames := { f with stack, pc := target } :: rest }
      | none => unwind load base exception rest

def doThrow (load : Loader) (base : Nat) (exception : Nat) : ThreadM Unit := do
  unwind load base exception (← get).frames

/-!
# Runs
-/

def apply (host : Host) (load : Loader) (base : Nat) : Effect → ThreadM Unit
  | .next => return ()
  | .call method => dispatch host load method
  | .ret value => doReturn base value
  | .throw exception => doThrow load base exception

def step (host : Host) (load : Loader) (base : Nat) : ThreadM Unit := do
  let effect ← onFrame (Exec.step load host.tracing)
  apply host load base effect

def isDone (t : Thread) (base : Nat) : Bool :=
  (t.frames.drop base).isEmpty

def steps (host : Host) (load : Loader) (base : Nat) : Nat → ThreadM Unit
  | 0 => throw .outOfFuel
  | fuel + 1 => do
      if (← get).isDone base then
        return ()
      step host load base
      steps host load base fuel

/-- Frames of the run, the innermost first. -/
def owned (t : Thread) (base : Nat) : List Frame :=
  t.frames.take (t.frames.length - base)

def recordFault (t : Thread) (base : Nat) (f : Fault) : Machine :=
  (t.owned base).foldl (fun m frame => m.record .error frame.traceLine)
    (t.machine.record .error f.message)

/-- Executes instructions until the run is done.  A fault is noted, and the frames of the run are
dropped. -/
def run (host : Host) (load : Loader) (fuel base : Nat) : ThreadM Unit := fun t =>
  match steps host load base fuel t with
  | .ok () t => .ok () t
  | .error (.fault f) t =>
      .error (.fault f)
        { t with machine := t.recordFault base f, frames := t.frames.drop (t.frames.length - base) }
  | .error .outOfFuel t => .error .outOfFuel t

def onFresh (x : ThreadM α) : MachineM α := fun m =>
  match x ⟨m, [], none⟩ with
  | .ok a t => .ok a t.machine
  | .error e t => .error e t.machine

def callNative (host : Host) (load : Loader) (method : Method) (stack : OperandStack) :
    MachineM (Option Value) := fun m =>
  let body : NativeM (Option Value) := do
    host.natives.call load method
    match method.signature.returns with
    | .void => return none
    | t => some <$> (OperandStack.popValue t : StackM Value)
  match body ⟨stack, m⟩ with
  | .ok a w => .ok a w.machine
  | .error e w => .error e w.machine

/-- Runs a method to its end, with arguments that include the receiver. -/
def invoke (host : Host) (load : Loader) (fuel : Nat) (method : Method) (arguments : List Value) :
    MachineM (Option Value) := do
  let stack := OperandStack.ofValues arguments
  if stack.size ≠ method.argumentSlots then
    illegal (.argumentCount method.label method.argumentSlots stack.size)
  if method.isNative then
    callNative host load method stack
  else if method.isAbstract then
    illegal (.abstractMethod method.label)
  else
    onFresh do
      pushFrame host method stack.toList
      run host load fuel 0
      return (← get).result

end Thread
end Bytecode
