import Bytecode.ClassFile.Constant
import Bytecode.Descriptor.ValueType
import Bytecode.Text.ModifiedUtf8

/-!
# Faults

Everything that can go wrong, by cause.  A fault carries the data of its cause; the wording is
given once, by `Fault.message`.
-/

namespace Bytecode

inductive Malformed where
  | badMagic (word : UInt32)
  | unsupportedVersion (major minor : UInt16)
  | truncated
  | overrun (wanted offset left : Nat)
  | unknownTag (tag : UInt8) (index : Nat)
  | wideOverrun
  | badByte (bad : Text.BadByte)
  | unusableIndex (index : UInt16)
  | indexOutOfRange (index : UInt16)
  | unexpectedConstant (wanted : String) (index : UInt16) (found : Constant)
  | notAMember (index : UInt16) (owner : String) (found : Constant)
  | notLoadable (index : UInt16) (owner : String) (found : Constant)
  | badType (text : String)
  | badField (text : String)
  | badMethod (text : String)
  | noCode (method : String)
  | badComponent (text : String)
  | badElementCode (code : UInt8)
  | noArrayType (name : String)
  | badArrayType (name : String)
  | circularity (name : String)
  | misnamed (name declared : String)
  | badSuperclass (name : String) (declared : Option String)
  | constantMisfit (constant : Constant) (owner field descriptor : String)
  | localOutOfRange (index count : Nat)
  | codeEnds (method : String)
  | branchLeaves (address : Nat) (offset : Int32) (method : String)
  | negativePairs (count : Int32) (method : String)
  | missingZeroByte (method : String)
  | tooManyDimensions (name : String) (dimensions : Nat)
  | noDimensions
  | archive (path reason : String)
deriving DecidableEq

/-- A machine in a state in which the request has no meaning. -/
inductive Illegal where
  | primitiveExpected
  | referenceExpected
  | stackUnderflow
  | voidPop
  | noFrame
  | emptyReturn
  | discarded (owner method : String)
  | noPool (name : String)
  | vanished (name : String)
  | extendsInterface (name parent : String)
  | implementsClass (name interface : String)
  | failedEarlier (name : String)
  | arrayType (name : String)
  | notArrayType (name : String)
  | rootNotLoaded (name : String)
  | interfaceMismatch (wantsInterface : Bool) (name : String)
  | argumentCount (method : String) (wanted given : Nat)
  | abstractMethod (method : String)
  | abstractSelected (method receiver : String)
  | notImplemented (receiver interface : String)
  | staticCallee (instruction method : String)
  | instanceCallee (method : String)
  | receiverNotReference (method : String)
  | noSuperclass (name : String)
  | abstractType (name : String)
  | notStatic (method : String)
  | arrayFound (name : String)
  | objectFound (name : String)
  | wrongKind (wanted found : Kind)
  | wrongElement (element : String) (wanted found : Kind)
  | copyBetween (source target : String)
  | lengthChanged
  | unnamedClassObject
  | classObjectOfNothing
  | notArrayClass (name : String)
  | notAString (name : String)
  | stringBackedBy (store : String)
  | notCharArray
  | stringStorage (descriptor : String)
  | noObject (address : Nat)
  | host (reason : String)
deriving DecidableEq

/-- A symbol that names nothing. -/
inductive Unresolved where
  | staticField (owner name descriptor : String)
  | instanceField (name descriptor owner : String)
  | namedField (name owner : String)
  | method (owner name descriptor : String)
  | staticMethod (name descriptor owner : String)
  | primitiveType (name : String)
deriving DecidableEq

inductive Division where
  | quotient
  | remainder
deriving DecidableEq

inductive FileFault where
  | notFound
  | notADirectory
  | isADirectory
  | nameTooLong
  | nulInPath
  | badChecksum
  | corruptStream
  | endOfFile
deriving DecidableEq

inductive Fault where
  | malformed (cause : Malformed)
  | classNotFound (name : String)
  | unresolved (symbol : Unresolved)
  | illegal (cause : Illegal)
  | nullReference (use : String)
  | zeroDivisor (operation : Division)
  | unsupported (opcode : UInt8) (mnemonic : String)
  | indexOutOfBounds (index : Int32) (length : Nat)
  | negativeArraySize (size : Int32)
  | classCast (source target : String)
  | uncaught (className message : String)
  | stackOverflow (depth : Nat)
  | noNative (owner method : String)
  | file (cause : FileFault)
deriving DecidableEq

/-!
# Wording
-/

def describeOption : Option String → String
  | none => "None"
  | some text => Constant.labelled "Some" (Text.quote text)

namespace Kind

def name : Kind → String
  | int => "int"
  | long => "long"
  | float => "float"
  | double => "double"
  | reference => "reference"

/-- What a value must be to be taken as this kind. -/
def requirement : Kind → String
  | int => "Only Int can be converted to i32"
  | long => "Only Long can be converted to i64"
  | float => "Only Float can be converted to f32"
  | double => "Only Double can be converted to f64"
  | reference => "Only Ref can be converted to Reference"

def mismatch (wanted found : Kind) : String :=
  wanted.requirement ++ ", found " ++ found.name

end Kind

namespace Malformed

def message : Malformed → String
  | badMagic word => s!"bad magic 0x{Text.hexPadded 8 word.toNat}"
  | unsupportedVersion major minor => s!"unsupported class version {major}.{minor}"
  | truncated => "truncated class descriptor: failed to fill whole buffer"
  | overrun wanted offset left =>
      s!"truncated class descriptor: {wanted} bytes wanted at offset {offset}, {left} left"
  | unknownTag tag index => s!"unknown constant pool tag {tag} at #{index}"
  | wideOverrun => "wide constant overruns the constant pool"
  | badByte bad =>
      s!"invalid modified UTF-8 byte 0x{Text.hexPadded 2 bad.byte.toNat} at {bad.position}"
  | unusableIndex index => s!"constant pool index {index} is not usable"
  | indexOutOfRange index => s!"constant pool index {index} out of range"
  | unexpectedConstant wanted index found =>
      s!"expected {wanted} at #{index}, found {found.describe}"
  | notAMember index owner found =>
      s!"expected a member reference at #{index} of {owner}, found {found.describe}"
  | notLoadable index owner found =>
      s!"constant #{index} of {owner} is not loadable: {found.describe}"
  | badType text => s!"bad type descriptor {text}"
  | badField text => s!"bad field descriptor {text}"
  | badMethod text => s!"bad method descriptor {text}"
  | noCode method => s!"method {method} has no Code attribute"
  | badComponent text => s!"bad array component {text}"
  | badElementCode code => s!"bad newarray type {code}"
  | noArrayType name => s!"{name} is not an array type"
  | badArrayType name => s!"bad array type {name}"
  | circularity name => s!"class circularity at {name}"
  | misnamed name declared => s!"{name} declares itself as {declared}"
  | badSuperclass name declared => s!"{name} has a bad superclass {describeOption declared}"
  | constantMisfit constant owner field descriptor =>
      s!"constant {constant.describe} does not fit field {owner}.{field}:{descriptor}"
  | localOutOfRange index count => s!"local variable {index} out of range ({count} locals)"
  | codeEnds method => s!"code of {method} ends inside an instruction"
  | branchLeaves address offset method =>
      s!"branch from {address} by {offset.toInt} leaves the code of {method}"
  | negativePairs count method => s!"lookupswitch with {count.toInt} pairs in {method}"
  | missingZeroByte method => s!"invokeinterface without its zero byte in {method}"
  | tooManyDimensions name dimensions =>
      s!"multianewarray of {name} with {dimensions} dimensions"
  | noDimensions => "multianewarray without dimensions"
  | archive path reason => s!"archive {path}: {reason}"

end Malformed

namespace Illegal

def message : Illegal → String
  | primitiveExpected => "expected a primitive slot, found a reference"
  | referenceExpected => "expected a reference slot, found a primitive"
  | stackUnderflow => "operand stack underflow"
  | voidPop => "cannot pop a void value"
  | noFrame => "no frame on the java stack"
  | emptyReturn => "return with an empty java stack"
  | discarded owner method => s!"class {owner} of {method} was discarded"
  | noPool name => s!"no constant pool for {name}"
  | vanished name => s!"{name} vanished after registration"
  | extendsInterface name parent => s!"{name} extends interface {parent}"
  | implementsClass name interface => s!"{name} implements class {interface}"
  | failedEarlier name => s!"initialization of {name} failed earlier"
  | arrayType name => s!"{name} is an array type"
  | notArrayType name => s!"{name} is not an array type"
  | rootNotLoaded name => s!"java/lang/Object must be loaded before {name}"
  | interfaceMismatch wantsInterface name =>
      (if wantsInterface then "interface method" else "method") ++ " reference to " ++ name ++
        " which " ++ (if wantsInterface then "is not" else "is") ++ " an interface"
  | argumentCount method wanted given =>
      s!"{method} takes {wanted} argument slots, got {given}"
  | abstractMethod method => s!"{method} is abstract"
  | abstractSelected method receiver => s!"abstract {method} invoked on {receiver}"
  | notImplemented receiver interface => s!"{receiver} does not implement {interface}"
  | staticCallee instruction method => s!"{instruction} of static method {method}"
  | instanceCallee method => s!"invokestatic of instance method {method}"
  | receiverNotReference method => s!"receiver of {method} is not a reference"
  | noSuperclass name => s!"{name} has no superclass"
  | abstractType name => s!"cannot instantiate abstract type {name}"
  | notStatic method => s!"{method} is not static"
  | arrayFound name => s!"expected an object, found array {name}"
  | objectFound name => s!"expected an array, found {name}"
  | wrongKind wanted found => wanted.mismatch found
  | wrongElement element wanted found =>
      element ++ " array store: illegal state: " ++ wanted.mismatch found
  | copyBetween source target => s!"arraycopy from {source} to {target}"
  | lengthChanged => "array length cannot change"
  | unnamedClassObject => "getName on a Class that mirrors nothing"
  | classObjectOfNothing => "array class argument mirrors nothing"
  | notArrayClass name => s!"{name} is not an array class"
  | notAString name => s!"{name} is not a string"
  | stringBackedBy store => s!"string backed by {store}"
  | notCharArray => "print(char[]) of a non-char array"
  | stringStorage descriptor => s!"unsupported String.value type {descriptor}"
  | noObject address => s!"no object at {address}"
  | host reason => reason

end Illegal

namespace Unresolved

def message : Unresolved → String
  | staticField owner name descriptor => s!"field {owner}.{name}:{descriptor}"
  | instanceField name descriptor owner => s!"field {name}:{descriptor} in {owner}"
  | namedField name owner => s!"field {name} in {owner}"
  | method owner name descriptor => s!"method {owner}.{name}{descriptor}"
  | staticMethod name descriptor owner => s!"static {name}{descriptor} in {owner}"
  | primitiveType name => s!"primitive type {name}"

end Unresolved

namespace FileFault

def message : FileFault → String
  | notFound => "No such file or directory (os error 2)"
  | notADirectory => "Not a directory (os error 20)"
  | isADirectory => "Is a directory (os error 21)"
  | nameTooLong => "File name too long (os error 36)"
  | nulInPath => "file name contained an unexpected NUL byte"
  | badChecksum => "Invalid checksum"
  | corruptStream => "corrupt deflate stream"
  | endOfFile => "unexpected end of file"

end FileFault

namespace Fault

def message : Fault → String
  | malformed cause => "malformed class descriptor: " ++ cause.message
  | classNotFound name => "class not found: " ++ name
  | unresolved symbol => "unresolved symbol: " ++ symbol.message
  | illegal cause => "illegal state: " ++ cause.message
  | nullReference use => "null reference: " ++ use
  | zeroDivisor .quotient => "arithmetic fault: / by zero"
  | zeroDivisor .remainder => "arithmetic fault: % by zero"
  | unsupported opcode mnemonic =>
      s!"unsupported instruction 0x{Text.hexPadded 2 opcode.toNat} ({mnemonic})"
  | indexOutOfBounds index length =>
      s!"array index {index.toInt} out of bounds for length {length}"
  | negativeArraySize size => s!"negative array size: {size.toInt}"
  | classCast source target => s!"class {source} cannot be cast to {target}"
  | uncaught className message => s!"uncaught exception {className}: {message}"
  | stackOverflow depth => s!"stack overflow: more than {depth} frames"
  | noNative owner method => s!"no native implementation for {owner}.{method}"
  | file cause => cause.message

end Fault
end Bytecode
