import Bytecode.Native.Basic

/-!
# Built-in native methods

The native methods that a small class library needs.
-/

namespace Bytecode
namespace Native

open OperandStack

/-!
# Objects
-/

def hashCode : Native := fun _ => do
  pushInt (identityHash (← popObject "hashCode receiver"))

def identityHashCode : Native := fun _ => do
  match ← popReference with
  | some address => pushInt (identityHash address)
  | none => pushInt 0

def getClass : Native := fun load => do
  let o ← Machine.object (← popObject "getClass receiver")
  pushReference (some (← Machine.typeObject load o.className))

def arrayCopy : Native := fun _ => do
  let length ← popInt
  let targetStart ← popInt
  let target ← popObject "arraycopy destination"
  let sourceStart ← popInt
  let source ← popObject "arraycopy source"
  Machine.copyElements source sourceStart target targetStart length

/-!
# Types
-/

def popText (use : String) : NativeM String := do
  let address ← (popObject use : StackM Nat)
  (← get).machine.textOf address

def substitute (old new : Char) (text : String) : String :=
  String.ofList (text.toList.map fun c => if c = old then new else c)

def getPrimitiveClass : Native := fun load => do
  let name ← popText "primitive type name"
  pushReference (some (← Machine.primitiveClassObject load name))

def isPrimitive : Native := fun _ => do
  let address ← popObject "isPrimitive receiver"
  pushInt (if (← get).machine.isPrimitiveClassObject address then 1 else 0)

def desiredAssertionStatus : Native := fun _ => do
  let _ ← popReference
  pushInt 0

def getName : Native := fun load => do
  let address ← popObject "getName receiver"
  let i ← Machine.instanceAt address
  let some name := i.reflects | illegal .unnamedClassObject
  pushReference (some (← Machine.newString load (substitute '/' '.' name)))

/-- Takes the name, a flag, a loader and the calling class; only the name counts. -/
def forName : Native := fun load => do
  let _ ← popReference
  let _ ← popReference
  let _ ← popInt
  let name ← popText "class name"
  pushReference (some (← Machine.typeObject load (substitute '.' '/' name)))

/-- Element kind of the array type that the class object on top of the stack stands for. -/
def popElement : NativeM Element := do
  let address ← (popObject "array class" : StackM Nat)
  let i ← Machine.instanceAt address
  let some name := i.reflects | illegal .classObjectOfNothing
  let some component := Descriptor.component? name | illegal (.notArrayClass name)
  Element.ofComponent component

def arrayBaseOffset : Native := fun _ => do
  let _ ← popElement
  let _ ← popReference
  pushInt 0

def arrayIndexScale : Native := fun _ => do
  let element ← popElement
  let _ ← popReference
  pushInt (Int32.ofNat element.width)

/-!
# Numbers and texts
-/

def floatToRawIntBits : Native := fun _ => do
  pushInt (← popFloat).toInt32

def intBitsToFloat : Native := fun _ => do
  pushFloat (← popInt).toUInt32

def doubleToRawLongBits : Native := fun _ => do
  pushLong (← popDouble).toInt64

def longBitsToDouble : Native := fun _ => do
  pushDouble (← popLong).toUInt64

def intern : Native := fun _ => do
  pushReference (some (← popObject "intern receiver"))

def isBigEndian : Native := fun _ => do
  pushInt 1

/-!
# Environment
-/

def doNothing : Native := fun _ => return ()

def dropArgument : Native := fun _ => do
  let _ ← popReference

def propertyTable : String := "[Ljava/lang/String;"

/-- A table of a hundred null texts: the library falls back to its defaults. -/
def platformProperties : Native := fun load => do
  pushReference (some (← Machine.newArray load propertyTable 100))

/-- Names and values of the properties of the machine, alternating. -/
def machineProperties : List String :=
  ["java.vm.name", "javelin", "java.vm.vendor", "javelin", "java.vm.version", "0.1.0"]

def storeTexts (load : Loader) (address : Nat) (index : Nat) : List String → MachineM Unit
  | [] => return ()
  | text :: rest => do
      let string ← Machine.newString load text
      Machine.storeElement address (Int32.ofNat index) (.reference (some string))
      storeTexts load address (index + 1) rest

def vmProperties : Native := fun load => do
  let address ← Machine.newArray load propertyTable (Int32.ofNat machineProperties.length)
  storeTexts load address 0 machineProperties
  pushReference (some address)

/-- Memory has no configured limit. -/
def maxMemory : Native := fun _ => do
  let _ ← popReference
  pushLong Int64.maxValue

def library : NativeTable := [
  (("java/lang/Object", "hashCode"), hashCode),
  (("java/lang/Object", "getClass"), getClass),
  (("java/lang/System", "identityHashCode"), identityHashCode),
  (("java/lang/System", "arraycopy"), arrayCopy),
  (("java/lang/Class", "getPrimitiveClass"), getPrimitiveClass),
  (("java/lang/Class", "isPrimitive"), isPrimitive),
  (("java/lang/Class", "desiredAssertionStatus0"), desiredAssertionStatus),
  (("java/lang/Class", "getName0"), getName),
  (("java/lang/Class", "forName0"), forName),
  (("java/lang/Float", "floatToRawIntBits"), floatToRawIntBits),
  (("java/lang/Float", "intBitsToFloat"), intBitsToFloat),
  (("java/lang/Double", "doubleToRawLongBits"), doubleToRawLongBits),
  (("java/lang/Double", "longBitsToDouble"), longBitsToDouble),
  (("java/lang/String", "intern"), intern),
  (("java/lang/StringUTF16", "isBigEndian"), isBigEndian),
  (("jdk/internal/misc/VM", "initialize"), doNothing),
  (("jdk/internal/misc/VM", "initializeFromArchive"), dropArgument),
  (("jdk/internal/misc/Unsafe", "arrayBaseOffset0"), arrayBaseOffset),
  (("jdk/internal/misc/Unsafe", "arrayIndexScale0"), arrayIndexScale),
  (("jdk/internal/util/SystemProps$Raw", "platformProperties"), platformProperties),
  (("jdk/internal/util/SystemProps$Raw", "vmProperties"), vmProperties),
  (("java/lang/Runtime", "maxMemory"), maxMemory)]

end Native
end Bytecode
