import Bytecode.ClassFile.Reader
import Bytecode.ClassPath.Basic
import Bytecode.Machine.Creation

/-!
# Loading

A class is loaded by reading its file, loading its superclass and interfaces, registering it and
running its static initializer.  A class that is asked for while it is being initialized is handed
out as it is; one that is asked for before it is registered is its own ancestor.
-/

namespace Bytecode

namespace Machine

/-- The class file of a name, which must declare that name. -/
def readClassFile (path : ClassPath) (name : String) : MachineM ClassFile := do
  let bytes ← path (← get).log name
  let file ← ClassFile.read bytes
  if file.name ≠ name then malformed (.misnamed name file.name)
  return file

/-- The superclass a file declares: none for the root, some class for all others. -/
def loadParent (load : Loader) (file : ClassFile) : MachineM (Option Class) := do
  match file.superName with
  | some superName =>
      if file.name = rootName then malformed (.badSuperclass file.name file.superName)
      let parent ← load.loadClass superName
      if parent.isInterface then illegal (.extendsInterface file.name parent.name)
      return some parent
  | none =>
      if file.name ≠ rootName then malformed (.badSuperclass file.name file.superName)
      return none

def loadInterface (load : Loader) (name interfaceName : String) : MachineM Class := do
  let interface ← load.loadClass interfaceName
  if !interface.isInterface then illegal (.implementsClass name interface.name)
  return interface

def link (load : Loader) (file : ClassFile) : MachineM Class := do
  let parent ← loadParent load file
  let interfaces ← file.interfaces.mapM (loadInterface load file.name)
  return .mk (← Declarations.ofFile file) parent interfaces

def registerPool (m : Machine) (name : String) (pool : Pool) : Machine :=
  if (m.pool? name).isSome then m else { m with pools := m.pools ++ [(name, pool)] }

/-- Adds a class unless its name is taken; tells whether it was added. -/
def registerClass (m : Machine) (c : Class) : Bool × Machine :=
  if m.isRegistered c.name then (false, m)
  else (true, { m with classes := m.classes ++ [Entry.ofClass c] })

/-!
# Initialization
-/

/-- The value a constant gives to a static field; a text becomes a string object. -/
def constantFor (load : Loader) (pool : Pool) (f : Field) (constant : Constant) :
    MachineM Value := do
  match constant, f.type.kind? with
  | .integer i, some .int => return .int i
  | .long l, some .long => return .long l
  | .float w, some .float => return .float w
  | .double w, some .double => return .double w
  | .string index, some .reference =>
      let address ← newString load (← pool.utf8 index)
      return .reference (some address)
  | _, _ => malformed (.constantMisfit constant f.owner f.name f.descriptor)

def assignConstant (load : Loader) (pool : Pool) (position : Nat) (f : Field) :
    MachineM Unit := do
  match f.constantValue with
  | some index =>
      if f.access.isFinal then
        let value ← constantFor load pool f (← pool.get index)
        modify (·.setStaticAt f.owner position value)
  | none => return ()

/-- Gives static fields their constants; the first field stands at `position`. -/
def assignConstants (load : Loader) (pool : Pool) (position : Nat) : List Field → MachineM Unit
  | [] => return ()
  | f :: rest => do
      assignConstant load pool position f
      assignConstants load pool (position + 1) rest

def runInitializer (load : Loader) (invoke : Method → MachineM Unit) (c : Class) :
    MachineM Unit := do
  let some pool := (← get).pool? c.name | illegal (.noPool c.name)
  assignConstants load pool 0 c.staticFields
  match c.declaredMethod? "<clinit>" "()V" with
  | some m => invoke m
  | none => return ()

def enterInitialized (load : Loader) (invoke : Method → MachineM Unit) (c : Class) :
    MachineM Unit := fun m =>
  match runInitializer load invoke c m with
  | .ok _ m => .ok () (m.setState c.name .initialized)
  | .error (.fault f) m => .error (.fault f) (m.setState c.name .erroneous)
  | .error .outOfFuel m => .error .outOfFuel m

/-!
# Loading
-/

def define (path : ClassPath) (load : Loader) (invoke : Method → MachineM Unit) (name : String) :
    MachineM Class := do
  let file ← readClassFile path name
  let c ← link load file
  modify (·.registerPool name file.pool)
  let added ← modifyGet (·.registerClass c)
  if added then
    -- as long as the class of such objects is missing, none stands for the class
    if (← get).isRegistered classClassName then
      let _ ← classObject load name
    enterInitialized load invoke c
    return c
  else
    match (← get).class? name with
    | some c => return c
    | none => illegal (.vanished name)

/-- Loads the type of a name.  `load` serves the requests that arise on the way. -/
def loadWith (path : ClassPath) (load : Loader) (invoke : Method → MachineM Unit) : Loader :=
  fun name => do
    if Descriptor.isArray name then
      return .ofArray (← arrayClass name)
    match (← get).registration? name with
    | some e =>
        if e.state = .erroneous then illegal (.failedEarlier name)
        return .ofClass e.cls
    | none =>
        -- asked for again before it is registered
        if (← get).loading.contains name then malformed (.circularity name)
        modify fun m => { m with loading := name :: m.loading }
        let c ← always (define path load invoke name) fun m =>
          { m with loading := m.loading.erase name }
        return .ofClass c

end Machine
end Bytecode
