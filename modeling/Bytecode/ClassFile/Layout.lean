import Bytecode.ClassFile.Basic

/-!
# Layout of class files

Class files as they are written: names and types are indices into the constant table.  Every layout
has bytes, and the content it stands for once its indices are looked up.
-/

namespace Bytecode

/-!
# Numbers
-/

namespace BigEndian

def u16 (word : UInt16) : List UInt8 :=
  [(word >>> 8).toUInt8, word.toUInt8]

def u32 (word : UInt32) : List UInt8 :=
  u16 (word >>> 16).toUInt16 ++ u16 word.toUInt16

def u64 (word : UInt64) : List UInt8 :=
  u32 (word >>> 32).toUInt32 ++ u32 word.toUInt32

def counted (bytes : α → List UInt8) (items : List α) : List UInt8 :=
  u16 items.length.toUInt16 ++ items.flatMap bytes

end BigEndian

open BigEndian

/-!
# Constants
-/

namespace Constant

def tagged (tag : UInt8) (indices : List UInt16) : List UInt8 :=
  tag :: indices.flatMap u16

def bytes : Constant → List UInt8
  | unusable => []
  | utf8 text =>
      let encoded := Text.toModifiedUtf8 text
      1 :: (u16 encoded.length.toUInt16 ++ encoded)
  | integer value => 3 :: u32 value.toUInt32
  | float word => 4 :: u32 word
  | long value => 5 :: u64 value.toUInt64
  | double word => 6 :: u64 word
  | classRef name => tagged 7 [name]
  | string text => tagged 8 [text]
  | fieldRef owner member => tagged 9 [owner, member]
  | methodRef owner member => tagged 10 [owner, member]
  | interfaceMethodRef owner member => tagged 11 [owner, member]
  | nameAndType name descriptor => tagged 12 [name, descriptor]
  | methodHandle kind target => 15 :: kind :: u16 target
  | methodType descriptor => tagged 16 [descriptor]
  | dynamic bootstrap member => tagged 17 [bootstrap, member]
  | invokeDynamic bootstrap member => tagged 18 [bootstrap, member]
  | moduleName name => tagged 19 [name]
  | packageName name => tagged 20 [name]

/-- The constant with the indices it takes: a wide one is followed by an index that holds
nothing. -/
def entries (c : Constant) : List Constant :=
  if c.isWide then [c, unusable] else [c]

end Constant

namespace Pool

def ofConstants (constants : List Constant) : Pool :=
  ⟨(Constant.unusable :: constants.flatMap Constant.entries).toArray⟩

def bytes (constants : List Constant) : List UInt8 :=
  u16 (ofConstants constants).size.toUInt16 ++ constants.flatMap Constant.bytes

end Pool

/-!
# Attributes
-/

namespace Handler

def bytes (h : Handler) : List UInt8 :=
  u16 h.start ++ u16 h.stop ++ u16 h.target ++ u16 h.catchType

end Handler

namespace Body

def bytes (b : Body) : List UInt8 :=
  u16 b.maxStack ++ u16 b.maxLocals ++ u32 b.code.length.toUInt32 ++ b.code ++
    counted Handler.bytes b.handlers

end Body

inductive AttributeLayout where
  | constantValue (name index : UInt16)
  | code (name : UInt16) (body : Body) (attributes : List AttributeLayout)
  | other (name : UInt16) (data : List UInt8)

namespace AttributeLayout

def framed (name : UInt16) (data : List UInt8) : List UInt8 :=
  u16 name ++ u32 data.length.toUInt32 ++ data

mutual

def bytes : AttributeLayout → List UInt8
  | constantValue name index => framed name (u16 index)
  | code name body attributes =>
      framed name (body.bytes ++ u16 attributes.length.toUInt16 ++ listBytes attributes)
  | other name data => framed name data

def listBytes : List AttributeLayout → List UInt8
  | [] => []
  | a :: rest => a.bytes ++ listBytes rest

end

mutual

/-- The attribute, if its name is the one of its kind. -/
def content? (p : Pool) : AttributeLayout → Option Attribute
  | constantValue name index =>
      match p.utf8 name with
      | .ok "ConstantValue" => some (.constantValue index)
      | _ => none
  | code name body attributes =>
      match p.utf8 name with
      | .ok "Code" => (listContent? p attributes).map (.code body)
      | _ => none
  | other name data =>
      match p.utf8 name with
      | .ok text =>
          if text = "ConstantValue" ∨ text = "Code" then none else some (.other text data)
      | .error _ => none

def listContent? (p : Pool) : List AttributeLayout → Option (List Attribute)
  | [] => some []
  | a :: rest =>
      match content? p a, listContent? p rest with
      | some a, some rest => some (a :: rest)
      | _, _ => none

end

end AttributeLayout

/-!
# Members and classes
-/

structure MemberLayout where
  access : UInt16
  name : UInt16
  descriptor : UInt16
  attributes : List AttributeLayout

namespace MemberLayout

def bytes (m : MemberLayout) : List UInt8 :=
  u16 m.access ++ u16 m.name ++ u16 m.descriptor ++
    counted AttributeLayout.bytes m.attributes

def content? (p : Pool) (m : MemberLayout) : Option Member := do
  let name ← (p.utf8 m.name).toOption
  let descriptor ← (p.utf8 m.descriptor).toOption
  let attributes ← AttributeLayout.listContent? p m.attributes
  return ⟨.ofWord m.access, name, descriptor, attributes⟩

end MemberLayout

structure ClassLayout where
  minor : UInt16
  major : UInt16
  /-- Constants without the indices that hold nothing. -/
  constants : List Constant
  access : UInt16
  thisClass : UInt16
  /-- Zero for a class without superclass. -/
  superClass : UInt16
  interfaces : List UInt16
  fields : List MemberLayout
  methods : List MemberLayout
  attributes : List AttributeLayout

namespace ClassLayout

def pool (c : ClassLayout) : Pool :=
  Pool.ofConstants c.constants

def bytes (c : ClassLayout) : List UInt8 :=
  u32 0xCAFEBABE ++ u16 c.minor ++ u16 c.major ++ Pool.bytes c.constants ++ u16 c.access ++
    u16 c.thisClass ++ u16 c.superClass ++ counted u16 c.interfaces ++
    counted MemberLayout.bytes c.fields ++ counted MemberLayout.bytes c.methods ++
    counted AttributeLayout.bytes c.attributes

/-- Name of the superclass; index zero is none. -/
def superName? (c : ClassLayout) : Option (Option String) :=
  if c.superClass = 0 then some none else (c.pool.className c.superClass).toOption.map some

def content? (c : ClassLayout) : Option ClassFile := do
  let name ← (c.pool.className c.thisClass).toOption
  let superName ← c.superName?
  let interfaces ← c.interfaces.mapM fun i => (c.pool.className i).toOption
  let fields ← c.fields.mapM (MemberLayout.content? c.pool)
  let methods ← c.methods.mapM (MemberLayout.content? c.pool)
  let attributes ← AttributeLayout.listContent? c.pool c.attributes
  return ⟨c.minor, c.major, c.pool, .ofWord c.access, name, superName, interfaces, fields, methods,
    attributes⟩

end ClassLayout
end Bytecode
