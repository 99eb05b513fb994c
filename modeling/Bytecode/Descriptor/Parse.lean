import Bytecode.Fault

/-!
# Descriptors

A field descriptor is one type; a method descriptor is a list of argument types between
parentheses and a return type.  Text that is not a descriptor is refused with the part that could
not be read.
-/

namespace Bytecode
namespace Descriptor

def ofLetter? : Char → Option ValueType
  | 'B' => some .byte
  | 'C' => some .char
  | 'D' => some .double
  | 'F' => some .float
  | 'I' => some .int
  | 'J' => some .long
  | 'S' => some .short
  | 'Z' => some .boolean
  | 'V' => some .void
  | _ => none

def afterSemicolon? : List Char → Option (List Char)
  | [] => none
  | ';' :: rest => some rest
  | _ :: rest => afterSemicolon? rest

def badType (text : List Char) : Malformed :=
  .badType (String.ofList text)

/-- Reads a type that has no leading bracket. -/
def takeElement (text : List Char) : Except Malformed (ValueType × List Char) :=
  match text with
  | [] => .error (badType text)
  | 'L' :: _ =>
      match afterSemicolon? text with
      | none => .error (badType text)
      | some rest => .ok (.reference, rest)
  | c :: rest =>
      match ofLetter? c with
      | none => .error (badType text)
      | some t => .ok (t, rest)

/-- Reads one type off the front of a text.  All leading brackets are taken at once; an array of
`void` is no type. -/
def takeType (text : List Char) : Except Malformed (ValueType × List Char) :=
  match text with
  | '[' :: _ =>
      match takeElement (text.dropWhile (· = '[')) with
      | .error e => .error e
      | .ok (t, rest) => if t = .void then .error (badType text) else .ok (.reference, rest)
  | _ => takeElement text

def fieldType (descriptor : String) : Except Malformed ValueType :=
  match takeType descriptor.toList with
  | .error e => .error e
  | .ok (t, rest) =>
      if rest ≠ [] ∨ t = .void then .error (.badField descriptor) else .ok t

structure Signature where
  arguments : List ValueType
  returns : ValueType
deriving DecidableEq

namespace Signature

/-- Slots taken by the arguments, receiver excluded. -/
def argumentSlots (s : Signature) : Nat :=
  s.arguments.foldr (fun t n => t.slots + n) 0

end Signature

/-- Argument types up to the closing parenthesis, and the text after it.  Every type takes at least
one character, so a count as large as the text is never used up. -/
def takeArguments (descriptor : String) :
    Nat → List Char → Except Malformed (List ValueType × List Char)
  | _, ')' :: rest => .ok ([], rest)
  | 0, text => .error (badType text)
  | count + 1, text =>
      match takeType text with
      | .error e => .error e
      | .ok (t, rest) =>
          if t = .void then .error (.badMethod descriptor)
          else
            match takeArguments descriptor count rest with
            | .error e => .error e
            | .ok (others, tail) => .ok (t :: others, tail)

def signature (descriptor : String) : Except Malformed Signature :=
  match descriptor.toList with
  | '(' :: text =>
      match takeArguments descriptor text.length text with
      | .error e => .error e
      | .ok (arguments, tail) =>
          match takeType tail with
          | .error e => .error e
          | .ok (returns, rest) =>
              if rest ≠ [] then .error (.badMethod descriptor) else .ok ⟨arguments, returns⟩
  | _ => .error (.badMethod descriptor)

end Descriptor
end Bytecode
