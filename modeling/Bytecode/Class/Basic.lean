import Bytecode.ClassFile.Basic
import Bytecode.Descriptor.Element
import Bytecode.Value

/-!
# Classes

A class as the machine uses it: its own declarations together with its superclass and its
interfaces, which are classes again.  What a running program can change about a class (its state
and the values of its static fields) is not part of it.
-/

namespace Bytecode

structure Field where
  owner : String
  name : String
  descriptor : String
  access : Access
  type : ValueType
  constantValue : Option UInt16
deriving DecidableEq

namespace Field

def isNamed (f : Field) (name descriptor : String) : Bool :=
  f.name == name && f.descriptor == descriptor

end Field

structure Method where
  owner : String
  name : String
  descriptor : String
  access : Access
  signature : Descriptor.Signature
  maxStack : UInt16
  maxLocals : UInt16
  code : Array UInt8
  handlers : List Handler
  signature_eq : Descriptor.signature descriptor = .ok signature
deriving DecidableEq

namespace Method

def isNamed (m : Method) (name descriptor : String) : Bool :=
  m.name == name && m.descriptor == descriptor

def isStatic (m : Method) : Bool := m.access.isStatic

def isNative (m : Method) : Bool := m.access.isNative

def isAbstract (m : Method) : Bool := m.access.isAbstract

/-- Slots a call takes off the stack of the caller, receiver included. -/
def argumentSlots (m : Method) : Nat :=
  m.signature.argumentSlots + (if m.isStatic then 0 else 1)

def label (m : Method) : String :=
  m.owner ++ "." ++ m.name ++ m.descriptor

end Method

/-- What one class file declares. -/
structure Declarations where
  name : String
  access : Access
  staticFields : List Field
  instanceFields : List Field
  methods : List Method

inductive Class where
  | mk (declarations : Declarations) (parent : Option Class) (interfaces : List Class)

namespace Class

def declarations : Class → Declarations
  | mk d _ _ => d

def parent : Class → Option Class
  | mk _ p _ => p

def interfaces : Class → List Class
  | mk _ _ is => is

def name (c : Class) : String := c.declarations.name

def access (c : Class) : Access := c.declarations.access

def staticFields (c : Class) : List Field := c.declarations.staticFields

def instanceFields (c : Class) : List Field := c.declarations.instanceFields

def methods (c : Class) : List Method := c.declarations.methods

def isInterface (c : Class) : Bool := c.access.isInterface

def isAbstract (c : Class) : Bool := c.access.isAbstract

end Class

/-!
# Well-known names
-/

def rootName : String := "java/lang/Object"

/-- Class of the objects that stand for types. -/
def classClassName : String := "java/lang/Class"

def stringName : String := "java/lang/String"

def arrayInterfaces : List String := ["java/lang/Cloneable", "java/io/Serializable"]

/-!
# Linking
-/

namespace Field

def ofMember (owner : String) (m : Member) : Except Malformed Field := do
  let type ← Descriptor.fieldType m.descriptor
  return ⟨owner, m.name, m.descriptor, m.access, type, m.constantValue?⟩

end Field

namespace Method

/-- The method a member of class `owner` declares.  Only native and abstract methods may be without
code. -/
def ofMember (owner : String) (m : Member) : Except Malformed Method :=
  match signature_eq : Descriptor.signature m.descriptor with
  | .error e => .error e
  | .ok signature =>
      match m.body? with
      | some body =>
          .ok ⟨owner, m.name, m.descriptor, m.access, signature, body.maxStack, body.maxLocals,
            body.code.toArray, body.handlers, signature_eq⟩
      | none =>
          if m.access.isNative || m.access.isAbstract then
            .ok ⟨owner, m.name, m.descriptor, m.access, signature, 0, 0, #[], [], signature_eq⟩
          else
            .error (.noCode (owner ++ "." ++ m.name ++ m.descriptor))

end Method

namespace Declarations

def ofFile (file : ClassFile) : Except Malformed Declarations := do
  let fields ← file.fields.mapM (Field.ofMember file.name)
  let methods ← file.methods.mapM (Method.ofMember file.name)
  return ⟨file.name, file.access, fields.filter (·.access.isStatic),
    fields.filter (!·.access.isStatic), methods⟩

end Declarations
end Bytecode
