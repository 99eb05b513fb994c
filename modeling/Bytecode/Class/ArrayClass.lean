import Bytecode.Class.Hierarchy

/-!
# Array classes

Every array type has a class of its own below the root.  Arrays of references may be used where an
array of a supertype is wanted.
-/

namespace Bytecode

structure ArrayClass where
  name : String
  element : Element
  /-- The root class. -/
  parent : Class

namespace ArrayClass

def ofName (name : String) (root : Class) : Except Malformed ArrayClass := do
  return ⟨name, ← Descriptor.elementOf name, root⟩

def component (a : ArrayClass) : String :=
  String.ofList (a.name.toList.drop 1)

/-- Name of the element type, without the marks of a class descriptor. -/
def componentName (a : ArrayClass) : String :=
  (Descriptor.classNameOf? a.component.toList).getD a.component

/-- Elements of descriptor `source` may be stored where `target` is wanted.  Classes are compared
only if `find?` knows both. -/
def componentFits (find? : String → Option Class) (source : List Char) : List Char → Bool
  | '[' :: target =>
      match source with
      | '[' :: inner => inner = target || componentFits find? inner target
      | _ => false
  | target =>
      source = target ||
        match Descriptor.classNameOf? target with
        | none => false
        | some targetName =>
            match source with
            | '[' :: _ => targetName == rootName || arrayInterfaces.contains targetName
            | _ =>
                match Descriptor.classNameOf? source with
                | none => false
                | some sourceName =>
                    match find? sourceName, find? targetName with
                    | some s, some t => s.looksLike t
                    | _, _ => false

/-- Arrays of class `a` may be used where the type named `target` is wanted. -/
def looksLike (find? : String → Option Class) (a : ArrayClass) (target : String) : Bool :=
  a.name == target || a.parent.name == target || arrayInterfaces.contains target ||
    match target.toList with
    | '[' :: component => componentFits find? a.component.toList component
    | _ => false

end ArrayClass
end Bytecode
