import Bytecode.Native.Library
import Bytecode.Thread.Basic

/-!
# Sessions

Requests a host makes to the machine.  Loading a class can run code, and running code can load
classes; fuel bounds how deep this nests and how many instructions each run executes.
-/

namespace Bytecode
namespace Host

def load (host : Host) : Nat → Loader
  | 0 => fun _ => throw .outOfFuel
  | fuel + 1 =>
      Machine.loadWith host.path (host.load fuel) fun method => do
        let _ ← Thread.invoke host (host.load fuel) fuel method []

def loadClass (host : Host) (fuel : Nat) (name : String) : MachineM Class :=
  (host.load fuel).loadClass name

def invoke (host : Host) (fuel : Nat) (method : Method) (arguments : List Value) :
    MachineM (Option Value) :=
  Thread.invoke host (host.load fuel) fuel method arguments

def invokeStatic (host : Host) (fuel : Nat) (owner name descriptor : String)
    (arguments : List Value) : MachineM (Option Value) := do
  let c ← host.loadClass fuel owner
  let some method := c.method? name descriptor
    | fail (.unresolved (.method owner name descriptor))
  if !method.isStatic then illegal (.notStatic method.label)
  host.invoke fuel method arguments

/-- A new object of a class; no constructor runs. -/
def newObject (host : Host) (fuel : Nat) (name : String) : MachineM Nat := do
  let c ← host.loadClass fuel name
  Machine.alloc (.ofInstance (.ofClass c))

def loadOptional (host : Host) (fuel : Nat) (name : String) : MachineM Unit := fun m =>
  match host.loadClass fuel name m with
  | .ok _ m => .ok () m
  | .error (.fault (.classNotFound _)) m => .ok () m
  | .error e m => .error e m

/-- Loads the core classes, of which only the root is indispensable, and makes the object that
stands for each registered class. -/
def bootstrap (host : Host) (fuel : Nat) : MachineM Unit := do
  let _ ← host.loadClass fuel rootName
  host.loadOptional fuel stringName
  host.loadOptional fuel classClassName
  let m ← get
  if m.isRegistered classClassName then
    m.classes.forM fun e => do
      let _ ← Machine.classObject (host.load fuel) e.cls.name

structure Program where
  /-- Name of the main class, with dots or slashes. -/
  mainClass : String
  arguments : List String

namespace Program

def className (program : Program) : String :=
  Native.substitute '.' '/' program.mainClass

def startRecord (program : Program) : Record :=
  ⟨.info, "Start " ++ program.className ++ " with " ++ Text.quoteList program.arguments⟩

def finishRecord (program : Program) : Record :=
  ⟨.info, "Finished " ++ program.className⟩

end Program

def start (host : Host) (fuel : Nat) (program : Program) : MachineM Unit := do
  let mainClass := program.className
  modify (·.note program.startRecord)
  host.bootstrap fuel
  let c ← host.loadClass fuel mainClass
  let mainDescriptor := "([Ljava/lang/String;)V"
  let some method := (c.declaredMethod? "main" mainDescriptor).filter (·.isStatic)
    | fail (.unresolved (.staticMethod "main" mainDescriptor mainClass))
  let load := host.load fuel
  let arguments ←
    Machine.newArray load "[Ljava/lang/String;" (Int32.ofNat program.arguments.length)
  Native.storeTexts load arguments 0 program.arguments
  let _ ← host.invoke fuel method [.reference (some arguments)]
  modify (·.note program.finishRecord)

end Host
end Bytecode
