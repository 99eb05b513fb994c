/-!
# Value types

A descriptor names one of ten value types.  Values themselves come in five kinds: the small
integral types share the kind of the 32-bit integers.  A kind takes one or two slots of an operand
stack or of the local variables.
-/

namespace Bytecode

/-- Kinds of values that slots can hold. -/
inductive Kind where
  | int
  | long
  | float
  | double
  | reference
deriving DecidableEq

inductive ValueType where
  | byte
  | short
  | int
  | long
  | char
  | float
  | double
  | boolean
  | reference
  | void
deriving DecidableEq

namespace Kind

def slots : Kind → Nat
  | long | double => 2
  | int | float | reference => 1

end Kind

namespace ValueType

def kind? : ValueType → Option Kind
  | byte | short | int | char | boolean => some .int
  | long => some .long
  | float => some .float
  | double => some .double
  | reference => some .reference
  | void => none

def slots (t : ValueType) : Nat :=
  (t.kind?.map Kind.slots).getD 0

end ValueType
end Bytecode
