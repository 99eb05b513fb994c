import Bytecode.Native.Basic

/-!
# Printing without a stream

A program whose library never set up its standard output prints to a null stream.  Such calls are
carried out by the machine itself.
-/

namespace Bytecode
namespace Print

open OperandStack

/-- Text of an object that is printed: characters of a character array, the text of a string, class
name and identity of anything else. -/
def objectText (m : Machine) (descriptor : String) (address : Nat) : Except Fault String := do
  let some o := m.objects[address]? | .error (.illegal (.noObject address))
  if "([C".toList.isPrefixOf descriptor.toList then
    let a ← o.asArray
    if a.store.layout = .chars then
      return Text.ofUnits (a.store.items.toList.map Store.unit)
    else
      .error (.illegal .notCharArray)
  else if o.className = stringName then
    m.textOf address
  else
    let dotted := String.ofList (o.className.toList.map fun c => if c = '/' then '.' else c)
    return dotted ++ "@" ++ Text.hex (identityHash address).toUInt32.toNat

def valueText (m : Machine) (t : ValueType) (descriptor : String) : Value → Except Fault String
  | .int value =>
      match t with
      | .boolean => .ok (if value = 0 then "false" else "true")
      | .char => .ok (Text.ofUnits [value.toUInt32.toUInt16])
      | _ => .ok (toString value.toInt)
  | .long value => .ok (toString value.toInt)
  | .float word => .ok (FloatingPoint.printed.write FloatingPoint.single word.toNat)
  | .double word => .ok (FloatingPoint.printed.write FloatingPoint.double word.toNat)
  | .reference none => .ok "null"
  | .reference (some address) => objectText m descriptor address

def isPrint (m : Method) : Bool :=
  m.owner == "java/io/PrintStream" && (m.name == "print" || m.name == "println")

/-- Takes the receiver off the stack and prints a text, with a line end if the method wants one. -/
def emit (m : Method) (text : String) : NativeM Unit := do
  let _ ← (popReference : StackM Reference)
  let text := if m.name = "println" then text ++ "\n" else text
  modify fun w => { w with machine := w.machine.print text }

/-- Carries out a call of a printing method with at most one argument; false, with nothing changed,
for any other method. -/
def onNull (m : Method) : NativeM Bool := do
  if !isPrint m then
    return false
  match m.signature.arguments with
  | [] =>
      emit m ""
      return true
  | [t] =>
      let value ← (popValue t : StackM Value)
      let text ← valueText (← get).machine t m.descriptor value
      emit m text
      return true
  | _ => return false

end Print
end Bytecode
