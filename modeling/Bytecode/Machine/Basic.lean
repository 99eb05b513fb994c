import Bytecode.Heap.Object
import Bytecode.Log

/-!
# The machine

Everything that outlives one method call: registered classes with their state and static fields,
objects, output and log.  Nothing is ever removed, and what a failed request changed stays changed.
-/

namespace Bytecode

inductive ClassState where
  | linked
  | initialized
  | erroneous
deriving DecidableEq

/-- A registered class and what a program can change about it. -/
structure Entry where
  cls : Class
  state : ClassState
  /-- Values of `cls.staticFields`. -/
  statics : List Value
  /-- The object that stands for the class. -/
  classObject : Option Nat

namespace Entry

def ofClass (c : Class) : Entry :=
  ⟨c, .linked, c.staticFields.map fun f => Value.default f.type, none⟩

end Entry

structure ArrayEntry where
  cls : ArrayClass
  classObject : Option Nat

structure Machine where
  /-- Registered classes in order of registration. -/
  classes : List Entry
  /-- Array classes in order of their first use. -/
  arrays : List ArrayEntry
  /-- Constant tables by class name. -/
  pools : List (String × Pool)
  /-- Class references that were followed, by class name and index. -/
  resolved : List ((String × UInt16) × Class)
  /-- Objects that stand for primitive types. -/
  primitives : List (String × Nat)
  /-- Names of classes being loaded. -/
  loading : List String
  objects : Array Object
  output : String
  log : Array Record

namespace Machine

def empty : Machine :=
  ⟨[], [], [], [], [], [], #[], "", #[]⟩

def registration? (m : Machine) (name : String) : Option Entry :=
  m.classes.find? (·.cls.name == name)

def class? (m : Machine) (name : String) : Option Class :=
  (m.registration? name).map Entry.cls

def isRegistered (m : Machine) (name : String) : Bool :=
  (m.registration? name).isSome

def array? (m : Machine) (name : String) : Option ArrayEntry :=
  m.arrays.find? (·.cls.name == name)

def pool? (m : Machine) (name : String) : Option Pool :=
  m.pools.lookup name

def modifyEntry (m : Machine) (name : String) (f : Entry → Entry) : Machine :=
  { m with classes := m.classes.map fun e => if e.cls.name == name then f e else e }

def setState (m : Machine) (name : String) (state : ClassState) : Machine :=
  m.modifyEntry name fun e => { e with state }

def staticPosition? (e : Entry) (f : Field) : Option Nat :=
  e.cls.staticFields.findIdx? (·.isNamed f.name f.descriptor)

def static? (m : Machine) (f : Field) : Option Value := do
  let e ← m.registration? f.owner
  e.statics[← staticPosition? e f]?

def setStaticAt (m : Machine) (owner : String) (position : Nat) (value : Value) : Machine :=
  m.modifyEntry owner fun e => { e with statics := e.statics.set position value }

def setStatic (m : Machine) (f : Field) (value : Value) : Machine :=
  match m.registration? f.owner >>= (staticPosition? · f) with
  | some position => m.setStaticAt f.owner position value
  | none => m

def note (m : Machine) (r : Record) : Machine :=
  { m with log := m.log.push r }

def record (m : Machine) (level : LogLevel) (text : String) : Machine :=
  m.note ⟨level, text⟩

def print (m : Machine) (text : String) : Machine :=
  { m with output := m.output ++ text }

end Machine

/-!
# Requests to the machine
-/

/-- Why a request did not finish. -/
inductive Halt where
  | fault (f : Fault)
  | outOfFuel

/-- Requests read and change the machine; changes made before a failure stay. -/
abbrev MachineM := EStateM Halt Machine

instance : MonadLift (Except Fault) (EStateM Halt σ) where
  monadLift
    | .ok a => pure a
    | .error f => throw (.fault f)

instance : MonadLift (Except Malformed) (EStateM Halt σ) where
  monadLift
    | .ok a => pure a
    | .error cause => throw (.fault (.malformed cause))

def fail (f : Fault) : EStateM Halt σ α :=
  throw (.fault f)

def illegal (cause : Illegal) : EStateM Halt σ α :=
  fail (.illegal cause)

def malformed (cause : Malformed) : EStateM Halt σ α :=
  fail (.malformed cause)

namespace Machine

/-- A request followed by a change that is made whether or not the request succeeds. -/
def always (x : MachineM α) (after : Machine → Machine) : MachineM α := fun m =>
  match x m with
  | .ok a m => .ok a (after m)
  | .error e m => .error e (after m)

/-!
# Objects
-/

def alloc (o : Object) : MachineM Nat :=
  modifyGet fun m => (m.objects.size, { m with objects := m.objects.push o })

def object (address : Nat) : MachineM Object := do
  match (← get).objects[address]? with
  | some o => return o
  | none => illegal (.noObject address)

def instanceAt (address : Nat) : MachineM Instance := do
  (← object address).asInstance

def arrayAt (address : Nat) : MachineM ArrayObject := do
  (← object address).asArray

def setObject (address : Nat) (o : Object) : MachineM Unit :=
  modify fun m => { m with objects := m.objects.setIfInBounds address o }

def loadElement (address : Nat) (index : Int32) : MachineM Value := do
  (← arrayAt address).store.load index

def storeElement (address : Nat) (index : Int32) (value : Value) : MachineM Unit := do
  let a ← arrayAt address
  let store ← a.store.store index value
  setObject address (.ofArray { a with store })

/-- Copies elements between two arrays, which may be the same. -/
def copyElements (source : Nat) (sourceStart : Int32) (target : Nat) (targetStart : Int32)
    (length : Int32) : MachineM Unit := do
  let s ← arrayAt source
  let t ← arrayAt target
  match ← s.store.copyInto t.store sourceStart targetStart length with
  | some store => setObject target (.ofArray { t with store })
  | none => illegal (.copyBetween s.cls.name t.cls.name)

def describeObject (m : Machine) (address : Nat) : String :=
  let name := (m.objects[address]?.map Object.className).getD ""
  name ++ "@" ++ Text.hex (identityHash address).toUInt32.toNat

end Machine
end Bytecode
