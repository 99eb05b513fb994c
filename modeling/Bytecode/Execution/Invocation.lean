import Bytecode.Execution.Basic
import Bytecode.Native.Print

/-!
# Selection of methods

From a method reference and the receiver on the stack to the method that is called.
-/

namespace Bytecode

/-- The method that a call on a receiver of class `c` runs. -/
def Class.select (c : Class) (method : Method) : Except Fault Method :=
  match c.method? method.name method.descriptor with
  | none => .error (.unresolved (.method c.name method.name method.descriptor))
  | some selected =>
      if selected.isAbstract then .error (.illegal (.abstractSelected selected.label c.name))
      else .ok selected

namespace Exec

open OperandStack

def receiver (method : Method) : Exec Reference := do
  match ← peek method.signature.argumentSlots with
  | .reference target => return target
  | .int _ => illegal (.receiverNotReference method.label)

def receiverObject (instruction : String) (method : Method) : Exec Nat := do
  match ← receiver method with
  | some address => return address
  | none => fail (.nullReference (instruction ++ " " ++ method.label))

def invokeStatic (load : Loader) (index : UInt16) : Exec Effect := do
  let method ← (← frame).pool.resolveMethod load index
  if !method.isStatic then illegal (.instanceCallee method.label)
  return .call method

/-- The method a call to a superclass is bound to: when the caller is a subclass of the class that
is named, the search starts at the caller's own superclass. -/
def bindSuper (caller referenced : Class) (method : Method) : Except Fault Method :=
  if method.name ≠ "<init>" ∧ caller.access.bindsSuper ∧ !referenced.isInterface ∧
      caller.isSubclassOf referenced then
    match caller.parent with
    | none => .error (.illegal (.noSuperclass caller.name))
    | some parent =>
        match parent.method? method.name method.descriptor with
        | none => .error (.unresolved (.method parent.name method.name method.descriptor))
        | some bound => .ok bound
  else
    .ok method

def invokeSpecial (load : Loader) (index : UInt16) : Exec Effect := do
  let f ← frame
  let member ← f.pool.member index
  let method ← f.pool.resolveMethod load index
  let referenced ← load.loadClass member.owner
  let method ← bindSuper f.cls referenced method
  if method.isStatic then illegal (.staticCallee "invokespecial" method.label)
  if method.isAbstract then illegal (.abstractMethod method.label)
  let _ ← receiverObject "invokespecial" method
  return .call method

/-- The implementation is selected by the class of the receiver, except for private methods. -/
def invokeVirtual (load : Loader) (index : UInt16) : Exec Effect := do
  let method ← (← frame).pool.resolveMethod load index
  if method.isStatic then illegal (.staticCallee "invokevirtual" method.label)
  match ← receiver method with
  | some address =>
      if method.access.isPrivate then
        return .call method
      let o ← Machine.object address
      return .call (← o.receiverClass.select method)
  | none =>
      -- a library that was never set up prints to a null stream
      if ← (Print.onNull method : NativeM Bool) then
        return .next
      fail (.nullReference ("invokevirtual " ++ method.label))

/-- The receiver must implement the interface that is named. -/
def invokeInterface (load : Loader) (index : UInt16) : Exec Effect := do
  let f ← frame
  let member ← f.pool.member index
  let method ← f.pool.resolveMethod load index
  let interface ← load.loadClass member.owner
  let o ← Machine.object (← receiverObject "invokeinterface" method)
  let c := o.receiverClass
  if !c.implements interface then illegal (.notImplemented c.name interface.name)
  return .call (← c.select method)

end Exec
end Bytecode
