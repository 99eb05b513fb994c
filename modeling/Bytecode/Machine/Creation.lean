import Bytecode.Machine.Basic

/-!
# Creation of objects

Arrays, texts and the objects that stand for types.  Making one may need a class that is not loaded
yet, so every request here is given the loader to use.
-/

namespace Bytecode

/-- What a type name stands for once it is loaded. -/
inductive Loaded where
  | ofClass (c : Class)
  | ofArray (a : ArrayClass)

abbrev Loader := String → MachineM Loaded

namespace Loader

def loadClass (load : Loader) (name : String) : MachineM Class := do
  match ← load name with
  | .ofClass c => return c
  | .ofArray a => illegal (.arrayType a.name)

def loadArray (load : Loader) (name : String) : MachineM ArrayClass := do
  match ← load name with
  | .ofArray a => return a
  | .ofClass c => illegal (.notArrayType c.name)

end Loader

namespace Machine

/-!
# Array classes
-/

/-- The class of an array type, made on its first use.  The root must be registered. -/
def arrayClass (name : String) : MachineM ArrayClass := do
  match (← get).array? name with
  | some e => return e.cls
  | none =>
      let some root := (← get).class? rootName | illegal (.rootNotLoaded name)
      let cls ← ArrayClass.ofName name root
      modify fun m => { m with arrays := m.arrays ++ [⟨cls, none⟩] }
      return cls

def newArrayOf (cls : ArrayClass) (length : Int32) : MachineM Nat := do
  if length < 0 then fail (.negativeArraySize length)
  alloc (.ofArray ⟨cls, Store.zeroed cls.element length.toInt.toNat⟩)

/-- A new array of the given contents; its length is a number of 32 bits. -/
def newArrayWith (cls : ArrayClass) (contents : Store) : MachineM Nat := do
  let length := Int32.ofNat contents.size
  if length < 0 then fail (.negativeArraySize length)
  if length.toInt.toNat ≠ contents.size then illegal .lengthChanged
  alloc (.ofArray ⟨cls, contents⟩)

def newArray (load : Loader) (name : String) (length : Int32) : MachineM Nat := do
  newArrayOf (← load.loadArray name) length

/-- Runs `make` for each index below `count` and stores what it returns. -/
def fillArray (address : Nat) (make : MachineM Nat) (index : Nat) : Nat → MachineM Unit
  | 0 => return ()
  | count + 1 => do
      let element ← make
      storeElement address (Int32.ofNat index) (.reference (some element))
      fillArray address make (index + 1) count

/-- Arrays nested as deep as there are lengths. -/
def nestedArray (load : Loader) (name : String) : List Int32 → MachineM Nat
  | [] => malformed .noDimensions
  | length :: inner => do
      let cls ← load.loadArray name
      let address ← newArrayOf cls length
      if inner ≠ [] then
        fillArray address (nestedArray load cls.component inner) 0 length.toInt.toNat
      return address

def newMultiArray (load : Loader) (name : String) (lengths : List Int32) : MachineM Nat := do
  match lengths.find? (· < 0) with
  | some negative => fail (.negativeArraySize negative)
  | none => nestedArray load name lengths

/-!
# Texts
-/

inductive Coding where
  | latin1
  | utf16
deriving DecidableEq

namespace Coding

def code : Coding → Int32
  | latin1 => 0
  | utf16 => 1

end Coding

/-- High byte, then low byte of a unit. -/
def unitHalves (u : UInt16) : List UInt8 :=
  [(u >>> 8).toUInt8, u.toUInt8]

/-- Contents of the `value` field of the given descriptor for a text, and the coding if the field
holds bytes. -/
def encodeText (descriptor : String) (units : List UInt16) :
    Except Fault (Store × Option Coding) :=
  if descriptor = "[C" then
    .ok (Store.ofUnits units, none)
  else if descriptor = "[B" then
    if units.all (· < 0x100) then
      .ok (Store.ofBytes (units.map UInt16.toUInt8), some .latin1)
    else
      .ok (Store.ofBytes (units.flatMap unitHalves), some .utf16)
  else
    .error (.illegal (.stringStorage descriptor))

def putIfPresent (i : Instance) (name descriptor : String) (value : Value) : Instance :=
  match i.cls.fieldPosition i.cls.name name descriptor with
  | .ok position => i.setValue position value
  | .error _ => i

def newString (load : Loader) (text : String) : MachineM Nat := do
  let cls ← load.loadClass stringName
  let units := Text.toUnits text
  let i := Instance.ofClass cls
  let some position := cls.namedPosition? "value"
    | fail (.unresolved (.namedField "value" stringName))
  let descriptor := (cls.layout[position]?.map Field.descriptor).getD ""
  let (store, coding) ← encodeText descriptor units
  let value ← newArrayWith (← load.loadArray descriptor) store
  let i := i.setValue position (.reference (some value))
  let i :=
    match coding with
    | some c => putIfPresent i "coder" "B" (.int c.code)
    | none => i
  let i := putIfPresent i "hash" "I" (.int (Text.unitHash units))
  alloc (.ofInstance i)

/-- Pairs of bytes as units; a byte left over is a unit of its own. -/
def unitsOfHalves : List UInt8 → List UInt16
  | [] => []
  | [single] => [single.toUInt16]
  | high :: low :: rest => ((high.toUInt16 <<< 8) ||| low.toUInt16) :: unitsOfHalves rest

def describeReference (m : Machine) : Reference → String
  | none => "None"
  | some address => Constant.labelled "Some" (m.describeObject address)

def decodeText (m : Machine) (coder : Int32) (store : Store) : Except Fault String :=
  match store.layout with
  | .chars => .ok (Text.ofUnits (store.items.toList.map Store.unit))
  | .bytes =>
      let bytes := store.items.toList.map Store.byte
      if coder = Coding.utf16.code then .ok (Text.ofUnits (unitsOfHalves bytes))
      else .ok (String.ofList (bytes.map fun b => Char.ofNat b.toNat))
  | _ => .error (.illegal (.stringBackedBy (store.describe m.describeReference)))

/-- Text of a string object; an object without contents is the empty text. -/
def textOf (m : Machine) (address : Nat) : Except Fault String := do
  let some o := m.objects[address]? | .error (.illegal (.noObject address))
  let i ← o.asInstance
  let some position := i.cls.namedPosition? "value" | .error (.illegal (.notAString i.cls.name))
  match ← (i.value position).toReference with
  | none => return ""
  | some contents =>
      -- where no coder is kept, each byte is a unit of its own
      let coder :=
        match i.field "coder" "B" with
        | .ok (.int coder) => coder
        | _ => Coding.latin1.code
      let some o := m.objects[contents]? | .error (.illegal (.noObject contents))
      m.decodeText coder (← o.asArray).store

def detailMessage? (m : Machine) (address : Nat) : Option String := do
  let o ← m.objects[address]?
  let i ← o.asInstance.toOption
  let value ← (i.field "detailMessage" "Ljava/lang/String;").toOption
  let message ← (← value.toReference.toOption)
  (m.textOf message).toOption

/-!
# Objects that stand for types
-/

def primitiveTypes : List String :=
  ["void", "boolean", "byte", "char", "short", "int", "long", "float", "double"]

def newClassObject (load : Loader) (name : String) : MachineM Nat := do
  let cls ← load.loadClass classClassName
  alloc (.ofInstance { Instance.ofClass cls with reflects := some name })

/-- The object that stands for a registered class.  While it is made, another one may come into
being; the first stays. -/
def classObject (load : Loader) (name : String) : MachineM Nat := do
  match (← get).registration? name >>= Entry.classObject with
  | some address => return address
  | none =>
      let created ← newClassObject load name
      match (← get).registration? name >>= Entry.classObject with
      | some address => return address
      | none =>
          modify fun m => m.modifyEntry name fun e => { e with classObject := some created }
          return created

def arrayClassObject (load : Loader) (name : String) : MachineM Nat := do
  match (← get).array? name >>= ArrayEntry.classObject with
  | some address => return address
  | none =>
      let created ← newClassObject load name
      match (← get).array? name >>= ArrayEntry.classObject with
      | some address => return address
      | none =>
          modify fun m =>
            { m with arrays := m.arrays.map fun e =>
                if e.cls.name == name then { e with classObject := some created } else e }
          return created

def primitiveClassObject (load : Loader) (name : String) : MachineM Nat := do
  if !primitiveTypes.contains name then fail (.unresolved (.primitiveType name))
  match (← get).primitives.lookup name with
  | some address => return address
  | none =>
      let created ← newClassObject load name
      match (← get).primitives.lookup name with
      | some address => return address
      | none =>
          modify fun m => { m with primitives := m.primitives ++ [(name, created)] }
          return created

def isPrimitiveClassObject (m : Machine) (address : Nat) : Bool :=
  m.primitives.any (·.2 == address)

def typeObject (load : Loader) (name : String) : MachineM Nat := do
  if primitiveTypes.contains name then
    primitiveClassObject load name
  else
    match ← load name with
    | .ofClass c => classObject load c.name
    | .ofArray a => arrayClassObject load a.name

end Machine
end Bytecode
