import Bytecode.Fault
import Bytecode.Log

/-!
# Class paths

A class path gives the bytes of a class by its name.
-/

namespace Bytecode

/-- Where the bytes of classes come from.  The records written so far are given too, because a file
that they are written to may lie on the path. -/
abbrev ClassPath := Array Record → String → Except Fault (List UInt8)

namespace ClassPath

/-- The class path of a table; of two rows with one name the later counts. -/
def ofRows (rows : List (String × List UInt8)) : ClassPath := fun _ name =>
  match rows.reverse.lookup name with
  | some bytes => .ok bytes
  | none => .error (.classNotFound name)

end ClassPath
end Bytecode
