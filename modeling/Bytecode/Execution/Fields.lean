import Bytecode.Execution.Basic

/-!
# Field access

Static fields are found through the class that the reference names, instance fields through the
class of the object.
-/

namespace Bytecode
namespace Exec

open OperandStack

def getStatic (load : Loader) (index : UInt16) : Exec Unit := do
  let f ← (← frame).pool.resolveStatic load index
  match (← get).machine.static? f with
  | some value => pushValue value
  | none => illegal (.discarded f.owner f.name)

def putStatic (load : Loader) (index : UInt16) : Exec Unit := do
  let f ← (← frame).pool.resolveStatic load index
  let value ← popValue f.type
  modify fun a => { a with machine := a.machine.setStatic f value }

def getField (index : UInt16) : Exec Unit := do
  let member ← (← frame).pool.member index
  let i ← Machine.instanceAt (← popObject "getfield receiver")
  let position ← i.cls.fieldPosition member.owner member.name member.descriptor
  pushValue (i.value position)

def putField (index : UInt16) : Exec Unit := do
  let member ← (← frame).pool.member index
  let value ← popValue (← Descriptor.fieldType member.descriptor)
  let address ← popObject "putfield receiver"
  let i ← Machine.instanceAt address
  let position ← i.cls.fieldPosition member.owner member.name member.descriptor
  Machine.setObject address (.ofInstance (i.setValue position value))

end Exec
end Bytecode
