import Bytecode.FloatingPoint.Spelling
import Bytecode.Text.Quoted

/-!
# Constants

Entries of the constant table of a class file.  Numbers of the floating-point formats are kept as
words, so that every bit survives.
-/

namespace Bytecode

/-- One entry of a constant table.  Numbers of type `UInt16` are indices into the same table. -/
inductive Constant where
  /-- Index zero, and the index after a constant that takes two. -/
  | unusable
  | utf8 (text : String)
  | integer (value : Int32)
  | float (word : UInt32)
  | long (value : Int64)
  | double (word : UInt64)
  | classRef (name : UInt16)
  | string (text : UInt16)
  | fieldRef (owner nameAndType : UInt16)
  | methodRef (owner nameAndType : UInt16)
  | interfaceMethodRef (owner nameAndType : UInt16)
  | nameAndType (name descriptor : UInt16)
  | methodHandle (kind : UInt8) (target : UInt16)
  | methodType (descriptor : UInt16)
  | dynamic (bootstrap nameAndType : UInt16)
  | invokeDynamic (bootstrap nameAndType : UInt16)
  | moduleName (name : UInt16)
  | packageName (name : UInt16)
deriving DecidableEq

namespace Constant

def isWide : Constant → Bool
  | long _ | double _ => true
  | _ => false

def labelled (label argument : String) : String :=
  label ++ "(" ++ argument ++ ")"

def labelledPair (label : String) (a b : Nat) : String :=
  labelled label (toString a ++ ", " ++ toString b)

def describe : Constant → String
  | unusable => "Unusable"
  | utf8 text => labelled "Utf8" (Text.quote text)
  | integer value => labelled "Integer" (toString value.toInt)
  | float word => labelled "Float" (FloatingPoint.plain.write FloatingPoint.single word.toNat)
  | long value => labelled "Long" (toString value.toInt)
  | double word => labelled "Double" (FloatingPoint.plain.write FloatingPoint.double word.toNat)
  | classRef name => labelled "Class" (toString name.toNat)
  | string text => labelled "String" (toString text.toNat)
  | fieldRef a b => labelledPair "FieldRef" a.toNat b.toNat
  | methodRef a b => labelledPair "MethodRef" a.toNat b.toNat
  | interfaceMethodRef a b => labelledPair "InterfaceMethodRef" a.toNat b.toNat
  | nameAndType a b => labelledPair "NameAndType" a.toNat b.toNat
  | methodHandle a b => labelledPair "MethodHandle" a.toNat b.toNat
  | methodType a => labelled "MethodType" (toString a.toNat)
  | dynamic a b => labelledPair "Dynamic" a.toNat b.toNat
  | invokeDynamic a b => labelledPair "InvokeDynamic" a.toNat b.toNat
  | moduleName a => labelled "Module" (toString a.toNat)
  | packageName a => labelled "Package" (toString a.toNat)

end Constant
end Bytecode
