import Bytecode.ClassFile.Basic

/-!
# Reading class files

Big-endian reading of a byte list from front to back.  Bytes after the class are not looked at.
An attribute is cut out by its length before it is read, and what its reader leaves over is
dropped.
-/

namespace Bytecode

/-- What is left of the input, and how much of it was read. -/
structure Cursor where
  offset : Nat
  rest : List UInt8

abbrev Reader := StateT Cursor (Except Malformed)

namespace Reader

/-!
# Numbers and blocks
-/

def u8 : Reader UInt8 := do
  let c ← get
  match c.rest with
  | [] => throw .truncated
  | b :: rest =>
      set (Cursor.mk (c.offset + 1) rest)
      return b

def u16 : Reader UInt16 := do
  let a ← u8
  let b ← u8
  return (a.toUInt16 <<< 8) ||| b.toUInt16

def u32 : Reader UInt32 := do
  let a ← u16
  let b ← u16
  return (a.toUInt32 <<< 16) ||| b.toUInt32

def u64 : Reader UInt64 := do
  let a ← u32
  let b ← u32
  return (a.toUInt64 <<< 32) ||| b.toUInt64

def block (count : Nat) : Reader (List UInt8) := do
  let c ← get
  if count ≤ c.rest.length then
    set (Cursor.mk (c.offset + count) (c.rest.drop count))
    return c.rest.take count
  else
    throw (.overrun count c.offset c.rest.length)

def times (item : Reader α) : Nat → Reader (List α)
  | 0 => return []
  | count + 1 => do
      let first ← item
      let rest ← times item count
      return first :: rest

/-- Reads a block of its own from its start. -/
def within (data : List UInt8) (reader : Reader α) : Reader α := do
  let (value, _) ← reader.run ⟨0, data⟩
  return value

/-!
# Constants
-/

def decodeText (bytes : List UInt8) : Reader String :=
  match Text.ofModifiedUtf8 bytes with
  | .ok text => return text
  | .error bad => throw (.badByte bad)

/-- A constant with the given tag, to be entered at `index`. -/
def constantOfTag (index : Nat) (tag : UInt8) : Reader Constant := do
  match tag.toNat with
  | 1 =>
      let length ← u16
      return .utf8 (← decodeText (← block length.toNat))
  | 3 => return .integer (← u32).toInt32
  | 4 => return .float (← u32)
  | 5 => return .long (← u64).toInt64
  | 6 => return .double (← u64)
  | 7 => return .classRef (← u16)
  | 8 => return .string (← u16)
  | 9 => return .fieldRef (← u16) (← u16)
  | 10 => return .methodRef (← u16) (← u16)
  | 11 => return .interfaceMethodRef (← u16) (← u16)
  | 12 => return .nameAndType (← u16) (← u16)
  | 15 => return .methodHandle (← u8) (← u16)
  | 16 => return .methodType (← u16)
  | 17 => return .dynamic (← u16) (← u16)
  | 18 => return .invokeDynamic (← u16) (← u16)
  | 19 => return .moduleName (← u16)
  | 20 => return .packageName (← u16)
  | _ => throw (.unknownTag tag index)

/-- Fills the table until no index remains.  A wide constant takes two indices and cannot stand at
the last one. -/
def constants (entries : Array Constant) : Nat → Reader (Array Constant)
  | 0 => return entries
  | 1 => do
      let entry ← constantOfTag entries.size (← u8)
      if entry.isWide then throw .wideOverrun
      return entries.push entry
  | remaining + 2 => do
      let entry ← constantOfTag entries.size (← u8)
      if entry.isWide then
        constants ((entries.push entry).push .unusable) remaining
      else
        constants (entries.push entry) (remaining + 1)

def pool : Reader Pool := do
  let count ← u16
  -- index zero is counted, although it holds nothing
  if count = 0 then throw .wideOverrun
  return ⟨← constants #[.unusable] (count.toNat - 1)⟩

/-!
# Attributes, members and the class
-/

def handler : Reader Handler := do
  return ⟨← u16, ← u16, ← u16, ← u16⟩

/-- Code followed by the attributes that `nested` reads. -/
def code (nested : Reader (List Attribute)) : Reader Attribute := do
  let maxStack ← u16
  let maxLocals ← u16
  let length ← u32
  let bytes ← block length.toNat
  let count ← u16
  let handlers ← times handler count.toNat
  return .code ⟨maxStack, maxLocals, bytes, handlers⟩ (← nested)

def singleAttribute (p : Pool) (nested : Reader (List Attribute)) : Reader Attribute := do
  let name ← p.utf8 (← u16)
  let length ← u32
  let data ← block length.toNat
  if name = "ConstantValue" then
    return .constantValue (← within data u16)
  else if name = "Code" then
    within data (code nested)
  else
    return .other name data

/-- A counted list of attributes.  Attributes nest inside code, each level in fewer bytes than the
one around it, so a depth as large as the input leaves nothing to read at depth zero. -/
def attributes (p : Pool) : Nat → Reader (List Attribute)
  | 0 => throw .truncated
  | depth + 1 => do
      let count ← u16
      times (singleAttribute p (attributes p depth)) count.toNat

def member (p : Pool) (depth : Nat) : Reader Member := do
  let access ← u16
  let name ← p.utf8 (← u16)
  let descriptor ← p.utf8 (← u16)
  return ⟨.ofWord access, name, descriptor, ← attributes p depth⟩

def members (p : Pool) (depth : Nat) : Reader (List Member) := do
  let count ← u16
  times (member p depth) count.toNat

/-- Name at a class reference, none at index zero. -/
def optionalClassName (p : Pool) (index : UInt16) : Except Malformed (Option String) :=
  if index = 0 then .ok none else (p.className index).map some

def classFile (depth : Nat) : Reader ClassFile := do
  let magic ← u32
  if magic ≠ 0xCAFEBABE then throw (.badMagic magic)
  let minor ← u16
  let major ← u16
  if major < 45 then throw (.unsupportedVersion major minor)
  let p ← pool
  let access ← u16
  let name ← p.className (← u16)
  let superName ← optionalClassName p (← u16)
  let count ← u16
  let interfaces ← times (do p.className (← u16)) count.toNat
  let fields ← members p depth
  let methods ← members p depth
  let attributes ← attributes p depth
  return ⟨minor, major, p, .ofWord access, name, superName, interfaces, fields, methods,
    attributes⟩

end Reader

def ClassFile.read (bytes : List UInt8) : Except Malformed ClassFile :=
  ((Reader.classFile (bytes.length + 1)).run ⟨0, bytes⟩).map Prod.fst

end Bytecode
