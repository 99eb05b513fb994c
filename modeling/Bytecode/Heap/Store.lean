import Bytecode.Descriptor.Element
import Bytecode.Value

/-!
# Array contents

Elements of an array as values.  A store accepts values of one kind and narrows integers to the
width of its elements, so a value read back is the one that the width can hold.
-/

namespace Bytecode

/-- Ways to keep elements; booleans are kept as bytes. -/
inductive Layout where
  | bytes
  | chars
  | shorts
  | ints
  | longs
  | floats
  | doubles
  | references
deriving DecidableEq

namespace Element

def layout : Element → Layout
  | boolean | byte => .bytes
  | char => .chars
  | short => .shorts
  | int => .ints
  | long => .longs
  | float => .floats
  | double => .doubles
  | reference => .references

end Element

namespace Layout

def kind : Layout → Kind
  | bytes | chars | shorts | ints => .int
  | longs => .long
  | floats => .float
  | doubles => .double
  | references => .reference

def elementName : Layout → String
  | bytes => "byte"
  | chars => "char"
  | shorts => "short"
  | ints => "int"
  | longs => "long"
  | floats => "float"
  | doubles => "double"
  | references => "reference"

def storeName : Layout → String
  | bytes => "Bytes"
  | chars => "Chars"
  | shorts => "Shorts"
  | ints => "Ints"
  | longs => "Longs"
  | floats => "Floats"
  | doubles => "Doubles"
  | references => "Refs"

/-- What is kept of an integer: bytes and shorts with their sign, chars without. -/
def narrowInt (l : Layout) (value : Int32) : Int32 :=
  match l with
  | bytes => value.toInt8.toInt32
  | chars => (value.toUInt32 &&& 0xFFFF).toInt32
  | shorts => value.toInt16.toInt32
  | _ => value

def narrow (l : Layout) (value : Value) : Except Fault Value :=
  if value.kind = l.kind then
    match value with
    | .int i => .ok (.int (l.narrowInt i))
    | other => .ok other
  else
    .error (.illegal (.wrongElement l.elementName l.kind value.kind))

end Layout

structure Store where
  layout : Layout
  items : Array Value
deriving DecidableEq

namespace Store

def zeroed (element : Element) (length : Nat) : Store :=
  ⟨element.layout, Array.replicate length (Value.zero element.layout.kind)⟩

def size (s : Store) : Nat :=
  s.items.size

def position (s : Store) (index : Int32) : Except Fault Nat :=
  if index < 0 ∨ s.size ≤ index.toInt.toNat then .error (.indexOutOfBounds index s.size)
  else .ok index.toInt.toNat

def load (s : Store) (index : Int32) : Except Fault Value := do
  let i ← s.position index
  match s.items[i]? with
  | some value => return value
  | none => .error (.indexOutOfBounds index s.size)

def store (s : Store) (index : Int32) (value : Value) : Except Fault Store := do
  let i ← s.position index
  let kept ← s.layout.narrow value
  return { s with items := s.items.setIfInBounds i kept }

/-- The items with `count` of them, from `place` on, replaced by those of `source` from `start`
on. -/
def splice (items source : Array Value) (start place count : Nat) : Array Value :=
  items.extract 0 place ++ source.extract start (start + count) ++
    items.extract (place + count) items.size

/-- The target after `length` elements are copied from `source`, ranges checked.  Both may be the
same array: the elements are those from before the copy. -/
def copyInto (source target : Store) (sourceStart targetStart length : Int32) :
    Except Fault (Option Store) :=
  if sourceStart < 0 ∨ targetStart < 0 ∨ length < 0 then
    let least := if sourceStart ≤ targetStart then sourceStart else targetStart
    let least := if least ≤ length then least else length
    .error (.indexOutOfBounds least source.size)
  else
    let start := sourceStart.toInt.toNat
    let place := targetStart.toInt.toNat
    let count := length.toInt.toNat
    if source.size < start + count then
      .error (.indexOutOfBounds (Int32.ofNat (start + count)) source.size)
    else if target.size < place + count then
      .error (.indexOutOfBounds (Int32.ofNat (place + count)) target.size)
    else if source.layout = target.layout then
      .ok (some { target with items := splice target.items source.items start place count })
    else
      .ok none

def unit : Value → UInt16
  | .int value => value.toUInt32.toUInt16
  | _ => 0

def byte : Value → UInt8
  | .int value => value.toUInt32.toUInt8
  | _ => 0

def ofUnits (units : List UInt16) : Store :=
  ⟨.chars, (units.map fun u => Value.int u.toUInt32.toInt32).toArray⟩

def ofBytes (bytes : List UInt8) : Store :=
  ⟨.bytes, (bytes.map fun b => Value.int b.toInt8.toInt32).toArray⟩

def describe (s : Store) (showReference : Reference → String) : String :=
  let showItem : Value → String
    | .int value => toString value.toInt
    | .long value => toString value.toInt
    | .float word => FloatingPoint.plain.write FloatingPoint.single word.toNat
    | .double word => FloatingPoint.plain.write FloatingPoint.double word.toNat
    | .reference target => showReference target
  s.layout.storeName ++ "([" ++ ", ".intercalate (s.items.toList.map showItem) ++ "])"

end Store
end Bytecode
