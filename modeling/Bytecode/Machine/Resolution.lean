import Bytecode.Machine.Creation

/-!
# Resolution

Following the symbolic references in the constant table of a class.  A followed class reference is
remembered by its index.
-/

namespace Bytecode

/-- A constant table together with the name of its class. -/
structure ClassPool where
  owner : String
  pool : Pool

namespace ClassPool

def constant (p : ClassPool) (index : UInt16) : Except Malformed Constant :=
  p.pool.get index

def className (p : ClassPool) (index : UInt16) : Except Malformed String :=
  p.pool.className index

def member (p : ClassPool) (index : UInt16) : Except Malformed MemberRef :=
  p.pool.member p.owner index

def resolveClass (load : Loader) (p : ClassPool) (index : UInt16) : MachineM Class := do
  if p.pool.size ≤ index.toNat then malformed (.indexOutOfRange index)
  match (← get).resolved.lookup (p.owner, index) with
  | some c => return c
  | none =>
      let c ← load.loadClass (← p.className index)
      -- the load may have followed the same reference
      match (← get).resolved.lookup (p.owner, index) with
      | some first => return first
      | none =>
          modify fun m => { m with resolved := ((p.owner, index), c) :: m.resolved }
          return c

def resolveStatic (load : Loader) (p : ClassPool) (index : UInt16) : MachineM Field := do
  let member ← p.member index
  let c ← load.loadClass member.owner
  c.staticField member.name member.descriptor

/-- The method at a method reference.  Methods of arrays are those of the root. -/
def resolveMethod (load : Loader) (p : ClassPool) (index : UInt16) : MachineM Method := do
  let member ← p.member index
  let c ← load.loadClass (if Descriptor.isArray member.owner then rootName else member.owner)
  if c.isInterface != member.ofInterface then
    illegal (.interfaceMismatch member.ofInterface c.name)
  match c.method? member.name member.descriptor with
  | some method => return method
  | none => fail (.unresolved (.method member.owner member.name member.descriptor))

def literal (load : Loader) (p : ClassPool) (index : UInt16) : MachineM Value := do
  let constant ← p.constant index
  match constant with
  | .integer value => return .int value
  | .float word => return .float word
  | .long value => return .long value
  | .double word => return .double word
  | .string text =>
      let address ← Machine.newString load (← p.pool.utf8 text)
      return .reference (some address)
  | .classRef _ =>
      let address ← Machine.typeObject load (← p.className index)
      return .reference (some address)
  | .methodHandle .. | .methodType _ | .dynamic .. =>
      fail (.unsupported 0x12 "ldc of a dynamic constant")
  | other => malformed (.notLoadable index p.owner other)

end ClassPool

namespace Machine

/-- The object may be viewed as the type named `target`, which is loaded unless the object is an
array or the type is an array type. -/
def isInstanceOf (load : Loader) (address : Nat) (target : String) : MachineM Bool := do
  match ← object address with
  | .ofArray a =>
      let m ← get
      return a.cls.looksLike m.class? target
  | .ofInstance i =>
      if Descriptor.isArray target then return false
      let t ← load.loadClass target
      return i.cls.looksLike t

end Machine
end Bytecode
