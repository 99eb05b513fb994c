/-!
# Access flags

The flag word of a class, field or method.  The undefined top bit is dropped when the word is read.
-/

namespace Bytecode

structure Access where
  bits : UInt16
deriving DecidableEq, Inhabited

namespace Access

/-- Flags of a word, without its undefined bit. -/
def ofWord (word : UInt16) : Access :=
  ⟨word &&& 0x7FFF⟩

def meets (a : Access) (mask : UInt16) : Bool :=
  a.bits &&& mask ≠ 0

def isPrivate (a : Access) : Bool := a.meets 0x0002

def isStatic (a : Access) : Bool := a.meets 0x0008

def isFinal (a : Access) : Bool := a.meets 0x0010

/-- Calls to a superclass are bound at the superclass of the caller. -/
def bindsSuper (a : Access) : Bool := a.meets 0x0020

def isNative (a : Access) : Bool := a.meets 0x0100

def isInterface (a : Access) : Bool := a.meets 0x0200

def isAbstract (a : Access) : Bool := a.meets 0x0400

end Access
end Bytecode
