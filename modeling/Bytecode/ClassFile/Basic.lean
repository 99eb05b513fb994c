import Bytecode.Access
import Bytecode.ClassFile.Pool

/-!
# Class files

Content of one class file: names are already looked up in the constant table.
-/

namespace Bytecode

/-- A range of code addresses and where to go when an exception passes through it. -/
structure Handler where
  start : UInt16
  stop : UInt16
  target : UInt16
  /-- Class reference, or zero for every exception. -/
  catchType : UInt16
deriving DecidableEq

namespace Handler

def covers (h : Handler) (address : Nat) : Bool :=
  h.start.toNat ≤ address && address < h.stop.toNat

end Handler

structure Body where
  maxStack : UInt16
  maxLocals : UInt16
  code : List UInt8
  handlers : List Handler
deriving DecidableEq

inductive Attribute where
  | constantValue (index : UInt16)
  | code (body : Body) (attributes : List Attribute)
  | other (name : String) (data : List UInt8)

namespace Attribute

def body? : Attribute → Option Body
  | code body _ => some body
  | _ => none

def constantValue? : Attribute → Option UInt16
  | constantValue index => some index
  | _ => none

end Attribute

structure Member where
  access : Access
  name : String
  descriptor : String
  attributes : List Attribute

namespace Member

/-- First code of the member. -/
def body? (m : Member) : Option Body :=
  m.attributes.findSome? Attribute.body?

def constantValue? (m : Member) : Option UInt16 :=
  m.attributes.findSome? Attribute.constantValue?

end Member

structure ClassFile where
  minor : UInt16
  major : UInt16
  pool : Pool
  access : Access
  name : String
  superName : Option String
  interfaces : List String
  fields : List Member
  methods : List Member
  attributes : List Attribute

end Bytecode
