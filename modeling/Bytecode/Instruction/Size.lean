import Bytecode.Opcode

/-!
# Sizes of instructions

Bytes taken by an instruction, by its operation code.  Switches have no fixed size, and codes that
no instruction has, have none at all.
-/

namespace Bytecode
namespace Opcode

def isSupported (code : UInt8) : Bool :=
  let n := code.toNat
  n ≤ 0xA7 || (0xAA ≤ n && n ≤ 0xB9) || (0xBB ≤ n && n ≤ 0xC1) || (0xC4 ≤ n && n ≤ 0xC8)

def isLocalAccess (code : UInt8) : Bool :=
  let n := code.toNat
  (0x15 ≤ n && n ≤ 0x19) || (0x36 ≤ n && n ≤ 0x3A)

def isSwitch (code : UInt8) : Bool :=
  code = 0xAA || code = 0xAB

/-- Size of the instruction of a code; `modified` is the code behind the one that widens. -/
def size? (code modified : UInt8) : Option Nat :=
  let n := code.toNat
  if !isSupported code || isSwitch code then none
  else if n = 0x10 || n = 0x12 || n = 0xBC || isLocalAccess code then some 2
  else if n = 0x11 || n = 0x13 || n = 0x14 || n = 0x84 then some 3
  else if 0x99 ≤ n && n ≤ 0xA7 then some 3
  else if 0xB2 ≤ n && n ≤ 0xB8 then some 3
  else if n = 0xBB || n = 0xBD || n = 0xC0 || n = 0xC1 || n = 0xC6 || n = 0xC7 then some 3
  else if n = 0xC5 then some 4
  else if n = 0xB9 || n = 0xC8 then some 5
  else if n = 0xC4 then
    if isLocalAccess modified then some 4
    else if modified = 0x84 then some 6
    else none
  else some 1

end Opcode
end Bytecode
