import Bytecode.Class.Basic

/-!
# Hierarchy

Supertypes of a class and what is found by searching them.  All searches go through two lists: the
superclass chain, and the superinterfaces in the order in which they are first met.
-/

namespace Bytecode
namespace Class

/-!
# Supertypes
-/

/-- The class itself, then each superclass up to the root. -/
def ancestors : Class → List Class
  | mk d none is => [mk d none is]
  | mk d (some p) is => mk d (some p) is :: ancestors p

def superclasses (c : Class) : List Class :=
  c.ancestors.drop 1

mutual

/-- Interfaces of the class and of its superclasses, each followed by its own superinterfaces. -/
def superinterfaces : Class → List Class
  | mk _ parent interfaces => withSuperinterfaces interfaces ++ parentSuperinterfaces parent

def withSuperinterfaces : List Class → List Class
  | [] => []
  | i :: rest => i :: (superinterfaces i ++ withSuperinterfaces rest)

def parentSuperinterfaces : Option Class → List Class
  | none => []
  | some p => superinterfaces p

end

/-!
# Assignability
-/

/-- A strict superclass has the name of `other`. -/
def isSubclassOf (c other : Class) : Bool :=
  c.superclasses.any (·.name == other.name)

def implements (c interface : Class) : Bool :=
  c.name == interface.name || c.superinterfaces.any (·.name == interface.name)

/-- Values of class `c` may be used where `other` is wanted. -/
def looksLike (c other : Class) : Bool :=
  if other.isInterface then c.implements other
  else c.name == other.name || c.isSubclassOf other

/-!
# Members
-/

def declaredMethod? (c : Class) (name descriptor : String) : Option Method :=
  c.methods.find? (·.isNamed name descriptor)

/-- The method of the class itself or else of its first superinterface that declares it. -/
def interfaceMethod? (c : Class) (name descriptor : String) : Option Method :=
  (c :: c.superinterfaces).findSome? (·.declaredMethod? name descriptor)

/-- The method of the nearest class of the chain that declares it, or else of an interface. -/
def method? (c : Class) (name descriptor : String) : Option Method :=
  match c.ancestors.findSome? (·.declaredMethod? name descriptor) with
  | some m => some m
  | none => c.interfaceMethod? name descriptor

def declaredStatic? (c : Class) (name descriptor : String) : Option Field :=
  c.staticFields.find? (·.isNamed name descriptor)

def chainStatic? (c : Class) (name descriptor : String) : Option Field :=
  c.ancestors.findSome? (·.declaredStatic? name descriptor)

/-- The static field on the chain of the class, or else on the chain of an interface. -/
def staticField (c : Class) (name descriptor : String) : Except Fault Field :=
  match c.chainStatic? name descriptor with
  | some f => .ok f
  | none =>
      match c.superinterfaces.findSome? (·.chainStatic? name descriptor) with
      | some f => .ok f
      | none => .error (.unresolved (.staticField c.name name descriptor))

end Class
end Bytecode
