import Bytecode.Class.ArrayClass
import Bytecode.Heap.Store

/-!
# Objects

An instance holds one value for each instance field of its class and of all superclasses, the most
derived class first.  A field reference is resolved to a position in that list, from the class it
names upward.
-/

namespace Bytecode

namespace Class

/-- Instance fields of a class and its superclasses, in the order of the values of an instance. -/
def layout (c : Class) : List Field :=
  c.ancestors.flatMap instanceFields

/-- The classes of the chain from the one named `owner` upward; all of them when there is none. -/
def chainFrom (c : Class) (owner : String) : List Class :=
  match c.ancestors.dropWhile (·.name != owner) with
  | [] => c.ancestors
  | chain => chain

def fieldPosition (c : Class) (owner name descriptor : String) : Except Fault Nat :=
  let chain := c.chainFrom owner
  let fields := chain.flatMap instanceFields
  match fields.findIdx? (·.isNamed name descriptor) with
  | some i => .ok (c.layout.length - fields.length + i)
  | none =>
      let searched := (chain.head?.map Class.name).getD c.name
      .error (.unresolved (.instanceField name descriptor searched))

def namedPosition? (c : Class) (name : String) : Option Nat :=
  c.layout.findIdx? (·.name == name)

end Class

structure Instance where
  cls : Class
  /-- Values of the fields of `cls.layout`. -/
  values : List Value
  /-- Name of the type that this object stands for. -/
  reflects : Option String

namespace Instance

def ofClass (c : Class) : Instance :=
  ⟨c, c.layout.map fun f => Value.default f.type, none⟩

def value (i : Instance) (position : Nat) : Value :=
  i.values.getD position (.reference none)

def setValue (i : Instance) (position : Nat) (value : Value) : Instance :=
  { i with values := i.values.set position value }

/-- The value of a field looked for from the most derived class upward. -/
def field (i : Instance) (name descriptor : String) : Except Fault Value :=
  (i.cls.fieldPosition i.cls.name name descriptor).map i.value

def rows (i : Instance) : List (Field × Value) :=
  i.cls.layout.zip i.values

end Instance

structure ArrayObject where
  cls : ArrayClass
  store : Store

inductive Object where
  | ofInstance (i : Instance)
  | ofArray (a : ArrayObject)

namespace Object

def className : Object → String
  | ofInstance i => i.cls.name
  | ofArray a => a.cls.name

def asInstance : Object → Except Fault Instance
  | ofInstance i => .ok i
  | ofArray a => .error (.illegal (.arrayFound a.cls.name))

def asArray : Object → Except Fault ArrayObject
  | ofArray a => .ok a
  | ofInstance i => .error (.illegal (.objectFound i.cls.name))

def receiverClass : Object → Class
  | ofInstance i => i.cls
  | ofArray a => a.cls.parent

end Object

/-- A number that tells objects apart; it never changes. -/
def identityHash (address : Nat) : Int32 :=
  Int32.ofNat (address + 1)

end Bytecode
