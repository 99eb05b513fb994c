import Bytecode.Descriptor.Parse

/-!
# Grammar of descriptors

Descriptors as trees, with the text of each tree.  A field descriptor is the text of one tree; a
method descriptor is the text of its argument trees between parentheses, followed by the text of
the tree of its result or by the letter of `void`.
-/

namespace Bytecode
namespace Descriptor

/-- Types that fields and arguments can have. -/
inductive TypeTree where
  | byte
  | char
  | double
  | float
  | int
  | long
  | short
  | boolean
  | object (name : List Char)
  | array (component : TypeTree)
deriving DecidableEq

namespace TypeTree

def text : TypeTree → List Char
  | byte => ['B']
  | char => ['C']
  | double => ['D']
  | float => ['F']
  | int => ['I']
  | long => ['J']
  | short => ['S']
  | boolean => ['Z']
  | object name => 'L' :: (name ++ [';'])
  | array component => '[' :: component.text

/-- No class name inside the type has a semicolon, which would end it early. -/
def WellNamed : TypeTree → Prop
  | object name => ';' ∉ name
  | array component => component.WellNamed
  | _ => True

def valueType : TypeTree → ValueType
  | byte => .byte
  | char => .char
  | double => .double
  | float => .float
  | int => .int
  | long => .long
  | short => .short
  | boolean => .boolean
  | object _ => .reference
  | array _ => .reference

def isWide : TypeTree → Bool
  | long | double => true
  | _ => false

end TypeTree

/-- A method descriptor; a method without a result has none. -/
structure MethodTree where
  arguments : List TypeTree
  result : Option TypeTree
deriving DecidableEq

namespace MethodTree

def resultText : Option TypeTree → List Char
  | some t => t.text
  | none => ['V']

def text (m : MethodTree) : List Char :=
  '(' :: (m.arguments.flatMap TypeTree.text ++ ')' :: resultText m.result)

def WellNamed (m : MethodTree) : Prop :=
  (∀ t ∈ m.arguments, t.WellNamed) ∧ ∀ t ∈ m.result, t.WellNamed

/-- Argument and result types as the machine sees them. -/
def signature (m : MethodTree) : Signature :=
  ⟨m.arguments.map TypeTree.valueType, (m.result.map TypeTree.valueType).getD .void⟩

end MethodTree
end Descriptor
end Bytecode
