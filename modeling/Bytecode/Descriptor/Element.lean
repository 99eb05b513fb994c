import Bytecode.Descriptor.Parse

/-!
# Array types

An array type is a bracket followed by the descriptor of its component.  The kind of the elements
decides how they are stored.
-/

namespace Bytecode

inductive Element where
  | boolean
  | byte
  | char
  | short
  | int
  | long
  | float
  | double
  | reference
deriving DecidableEq

namespace Element

/-- Kind of elements with the given component descriptor; only its first character counts. -/
def ofComponent (component : String) : Except Malformed Element :=
  match component.toList with
  | 'Z' :: _ => .ok .boolean
  | 'B' :: _ => .ok .byte
  | 'C' :: _ => .ok .char
  | 'S' :: _ => .ok .short
  | 'I' :: _ => .ok .int
  | 'J' :: _ => .ok .long
  | 'F' :: _ => .ok .float
  | 'D' :: _ => .ok .double
  | 'L' :: _ => .ok .reference
  | '[' :: _ => .ok .reference
  | _ => .error (.badComponent component)

/-- Kind named by the operand of an instruction that makes a primitive array. -/
def ofCode (code : UInt8) : Except Malformed Element :=
  match code.toNat with
  | 4 => .ok .boolean
  | 5 => .ok .char
  | 6 => .ok .float
  | 7 => .ok .double
  | 8 => .ok .byte
  | 9 => .ok .short
  | 10 => .ok .int
  | 11 => .ok .long
  | _ => .error (.badElementCode code)

def width : Element → Nat
  | boolean | byte => 1
  | char | short => 2
  | int | float | reference => 4
  | long | double => 8

def letter : Element → String
  | boolean => "Z"
  | byte => "B"
  | char => "C"
  | short => "S"
  | int => "I"
  | long => "J"
  | float => "F"
  | double => "D"
  | reference => "L"

end Element

namespace Descriptor

def component? (name : String) : Option String :=
  match name.toList with
  | '[' :: component => some (String.ofList component)
  | _ => none

def isArray (name : String) : Bool :=
  (component? name).isSome

/-- Class name inside `L…;`. -/
def classNameOf? : List Char → Option String
  | 'L' :: rest => if rest.getLast? = some ';' then some (String.ofList rest.dropLast) else none
  | _ => none

def ofClassName (name : String) : String :=
  "L" ++ name ++ ";"

/-- Kind of the elements of an array type that is well formed. -/
def elementOf (name : String) : Except Malformed Element := do
  let some component := component? name | .error (.noArrayType name)
  let element ← Element.ofComponent component
  if element = .reference then
    let _ ← fieldType component
    return element
  else if component.length ≠ 1 then
    .error (.badArrayType name)
  else
    return element

end Descriptor
end Bytecode
