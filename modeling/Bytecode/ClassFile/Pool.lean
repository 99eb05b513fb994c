import Bytecode.Fault

/-!
# Constant tables

A constant table is indexed from zero, but index zero and the second index of a wide constant hold
nothing.  Look-ups say what they expected when they find something else.
-/

namespace Bytecode

structure Pool where
  entries : Array Constant
deriving Inhabited

namespace Pool

def size (p : Pool) : Nat :=
  p.entries.size

/-- At most index zero exists. -/
def isEmpty (p : Pool) : Bool :=
  p.size ≤ 1

def get (p : Pool) (index : UInt16) : Except Malformed Constant :=
  match p.entries[index.toNat]? with
  | none => .error (.unusableIndex index)
  | some .unusable => .error (.unusableIndex index)
  | some constant => .ok constant

def utf8 (p : Pool) (index : UInt16) : Except Malformed String := do
  match ← p.get index with
  | .utf8 text => .ok text
  | other => .error (.unexpectedConstant "Utf8" index other)

def className (p : Pool) (index : UInt16) : Except Malformed String := do
  match ← p.get index with
  | .classRef name => p.utf8 name
  | other => .error (.unexpectedConstant "Class" index other)

def nameAndType (p : Pool) (index : UInt16) : Except Malformed (String × String) := do
  match ← p.get index with
  | .nameAndType name descriptor => return (← p.utf8 name, ← p.utf8 descriptor)
  | other => .error (.unexpectedConstant "NameAndType" index other)

end Pool

structure MemberRef where
  owner : String
  name : String
  descriptor : String
  /-- The owner is named as an interface. -/
  ofInterface : Bool
deriving DecidableEq

namespace Pool

def member (p : Pool) (owner : String) (index : UInt16) : Except Malformed MemberRef := do
  let (classIndex, memberIndex, ofInterface) ←
    match ← p.get index with
    | .fieldRef c m | .methodRef c m => pure (c, m, false)
    | .interfaceMethodRef c m => pure (c, m, true)
    | other => .error (.notAMember index owner other)
  let (name, descriptor) ← p.nameAndType memberIndex
  return ⟨← p.className classIndex, name, descriptor, ofInterface⟩

end Pool
end Bytecode
