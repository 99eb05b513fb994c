import Bytecode.Execution.Arithmetic
import Bytecode.Execution.Fields
import Bytecode.Execution.Invocation
import Bytecode.Instruction.Decode

/-!
# Meaning of instructions

Operands are taken in a fixed order, and the first thing that goes wrong decides the fault.
-/

namespace Bytecode
namespace Exec

open OperandStack

/-!
# Variables and arrays
-/

def loadLocal (kind : Kind) (index : Nat) : Exec Unit := do
  pushValue (← (← frame).locals.read kind index)

def storeLocal (kind : Kind) (index : Nat) : Exec Unit := do
  let value ← popKind kind
  setLocals (← (← frame).locals.write index value)

def increment (index : Nat) (delta : Int32) : Exec Unit := do
  let locals := (← frame).locals
  let value ← locals.getInt index
  setLocals (← locals.setInt index (value + delta))

def arrayLoad : Exec Unit := do
  let index ← popInt
  let address ← popObject "array load"
  pushValue (← Machine.loadElement address index)

def arrayStore (kind : Kind) : Exec Unit := do
  let value ← popKind kind
  let index ← popInt
  let address ← popObject "array store"
  Machine.storeElement address index value

def arrayLength : Exec Unit := do
  let a ← Machine.arrayAt (← popObject "arraylength")
  pushInt (Int32.ofNat a.store.size)

/-!
# Branches
-/

def branchZero (condition : Condition) (offset : Int32) : Exec Unit := do
  let value ← popInt
  if condition.holds (compareInt value 0) then jump offset

def branchInt (condition : Condition) (offset : Int32) : Exec Unit := do
  let b ← popInt
  let a ← popInt
  if condition.holds (compareInt a b) then jump offset

def branchSame (same : Bool) (offset : Int32) : Exec Unit := do
  let b ← popReference
  let a ← popReference
  if (a == b) == same then jump offset

def branchNull (null : Bool) (offset : Int32) : Exec Unit := do
  let a ← popReference
  if a.isNone == null then jump offset

/-- The offset for a key: keys from `low` to `high` have offsets of their own. -/
def tableOffset (default low high : Int32) (offsets : List Int32) (key : Int32) : Int32 :=
  if key < low ∨ high < key then default
  else offsets.getD (key.toInt - low.toInt).toNat default

/-- The offset of the last pair with the given key. -/
def lookupOffset (default : Int32) (table : List (Int32 × Int32)) (key : Int32) : Int32 :=
  table.foldl (fun offset pair => if pair.1 = key then pair.2 else offset) default

def tableSwitch (default low high : Int32) (offsets : List Int32) : Exec Unit := do
  jump (tableOffset default low high offsets (← popInt))

def lookupSwitch (default : Int32) (table : Option (List (Int32 × Int32))) : Exec Unit := do
  let key ← popInt
  match table with
  | some table => jump (lookupOffset default table key)
  | none => malformed (.codeEnds (← frame).method.label)

/-!
# Objects
-/

def newObject (load : Loader) (index : UInt16) : Exec Unit := do
  let c ← (← frame).pool.resolveClass load index
  if c.isInterface || c.isAbstract then illegal (.abstractType c.name)
  pushReference (some (← Machine.alloc (.ofInstance (.ofClass c))))

def newArray (load : Loader) (element : Element) : Exec Unit := do
  let length ← popInt
  pushReference (some (← Machine.newArray load ("[" ++ element.letter) length))

/-- A class that is the element type is loaded first. -/
def newReferenceArray (load : Loader) (index : UInt16) : Exec Unit := do
  let component ← (← frame).pool.className index
  let name ←
    if Descriptor.isArray component then
      pure ("[" ++ component)
    else do
      let _ ← load.loadClass component
      pure ("[" ++ Descriptor.ofClassName component)
  let length ← popInt
  pushReference (some (← Machine.newArray load name length))

/-- Pops the given number of lengths, the first one deepest. -/
def popLengths : Nat → StackM (List Int32)
  | 0 => return []
  | count + 1 => do
      let last ← popInt
      let others ← popLengths count
      return others ++ [last]

def newMultiArray (load : Loader) (index : UInt16) (dimensions : Nat) : Exec Unit := do
  let name ← (← frame).pool.className index
  if dimensions = 0 ∨ (name.toList.takeWhile (· = '[')).length < dimensions then
    malformed (.tooManyDimensions name dimensions)
  let lengths ← popLengths dimensions
  pushReference (some (← Machine.newMultiArray load name lengths))

def checkCast (load : Loader) (index : UInt16) : Exec Unit := do
  let target ← (← frame).pool.className index
  let reference ← popReference
  match reference with
  | some address =>
      if !(← Machine.isInstanceOf load address target) then
        fail (.classCast (← Machine.object address).className target)
  | none => pure ()
  pushReference reference

def instanceOf (load : Loader) (index : UInt16) : Exec Unit := do
  let target ← (← frame).pool.className index
  match ← popReference with
  | some address => pushInt (if ← Machine.isInstanceOf load address target then 1 else 0)
  | none => pushInt 0

/-- An instruction without an effect on other frames. -/
def thenNext (x : Exec Unit) : Exec Effect := do
  x
  return .next

end Exec

open OperandStack

def Instruction.execute (load : Loader) : Instruction → Exec Effect
  | nop => return .next
  | push value => Exec.thenNext (pushValue value)
  | pushConstant index =>
      Exec.thenNext do pushValue (← (← Exec.frame).pool.literal load index)
  | Instruction.load kind index => Exec.thenNext (Exec.loadLocal kind index)
  | store kind index => Exec.thenNext (Exec.storeLocal kind index)
  | increment index delta => Exec.thenNext (Exec.increment index delta)
  | arrayLoad => Exec.thenNext Exec.arrayLoad
  | arrayStore kind => Exec.thenNext (Exec.arrayStore kind)
  | shuffle move => Exec.thenNext move.apply
  | intOp op => Exec.thenNext op.applyInt
  | longOp op => Exec.thenNext op.applyLong
  | intShift op => Exec.thenNext op.applyInt
  | longShift op => Exec.thenNext op.applyLong
  | floatOp op => Exec.thenNext op.applyFloat
  | doubleOp op => Exec.thenNext op.applyDouble
  | negate number => Exec.thenNext number.negate
  | convert conversion => Exec.thenNext conversion.apply
  | compareLong => Exec.thenNext compareLongs
  | compareFloat unordered => Exec.thenNext (compareFloats unordered)
  | compareDouble unordered => Exec.thenNext (compareDoubles unordered)
  | branchZero condition offset => Exec.thenNext (Exec.branchZero condition offset)
  | branchInt condition offset => Exec.thenNext (Exec.branchInt condition offset)
  | branchSame same offset => Exec.thenNext (Exec.branchSame same offset)
  | branchNull null offset => Exec.thenNext (Exec.branchNull null offset)
  | jump offset => Exec.thenNext (Exec.jump offset)
  | tableSwitch default low high offsets =>
      Exec.thenNext (Exec.tableSwitch default low high offsets)
  | lookupSwitch default table => Exec.thenNext (Exec.lookupSwitch default table)
  | returnValue kind => do return .ret (some (← popKind kind))
  | returnVoid => return .ret none
  | getStatic index => Exec.thenNext (Exec.getStatic load index)
  | putStatic index => Exec.thenNext (Exec.putStatic load index)
  | getField index => Exec.thenNext (Exec.getField index)
  | putField index => Exec.thenNext (Exec.putField index)
  | invokeVirtual index => Exec.invokeVirtual load index
  | invokeSpecial index => Exec.invokeSpecial load index
  | invokeStatic index => Exec.invokeStatic load index
  | invokeInterface index => Exec.invokeInterface load index
  | new index => Exec.thenNext (Exec.newObject load index)
  | newArray element => Exec.thenNext (Exec.newArray load element)
  | newReferenceArray index => Exec.thenNext (Exec.newReferenceArray load index)
  | newMultiArray index dimensions => Exec.thenNext (Exec.newMultiArray load index dimensions)
  | arrayLength => Exec.thenNext Exec.arrayLength
  | throw => do return .throw (← popObject "athrow")
  | checkCast index => Exec.thenNext (Exec.checkCast load index)
  | instanceOf index => Exec.thenNext (Exec.instanceOf load index)

/-!
# One step
-/

def DecodeError.fault (method : Method) : DecodeError → Fault
  | codeEnds => .malformed (.codeEnds method.label)
  | unsupported opcode => .unsupported opcode (Opcode.mnemonic opcode)
  | badElementCode code => .malformed (.badElementCode code)
  | negativePairs count => .malformed (.negativePairs count method.label)
  | missingZeroByte => .malformed (.missingZeroByte method.label)

namespace Exec

/-- The operation code at the next address, which becomes the current one. -/
def fetch : Exec UInt8 := do
  let a ← get
  set { a with frame := { a.frame with current := a.frame.pc } }
  match a.frame.method.code[a.frame.pc]? with
  | some opcode => return opcode
  | none => fail (DecodeError.codeEnds.fault a.frame.method)

def note (tracing : Bool) (opcode : UInt8) : Exec Unit := do
  if tracing then
    let f ← frame
    let text := f.method.label ++ " [" ++ toString f.current ++ "] " ++ Opcode.mnemonic opcode
    modify fun a => { a with machine := a.machine.record .trace text }

def decode (opcode : UInt8) : Exec Instruction := do
  let a ← get
  match Instruction.decode a.frame.method.code opcode (a.frame.current + 1) with
  | .ok (i, next) =>
      set { a with frame := { a.frame with pc := next } }
      return i
  | .error e => fail (e.fault a.frame.method)

def step (load : Loader) (tracing : Bool) : Exec Effect := do
  let opcode ← fetch
  note tracing opcode
  let i ← decode opcode
  i.execute load

end Exec
end Bytecode
