import Bytecode.Archive.Checksum
import Bytecode.Archive.Listing

/-!
# Extra fields

A directory line may carry fields that correct what it says: numbers too large for it, names and
comments in Unicode, how the contents are encrypted.  Fields that are cut off end the reading, and
what was corrected before stays; a field that contradicts itself makes the line unreadable.
-/

namespace Bytecode
namespace Archive

inductive FieldStop where
  | cutOff
  | refused
deriving DecidableEq

/-- Bytes of the fields not read yet, and the listing as corrected so far. -/
structure FieldReader where
  rest : List UInt8
  listing : Listing

/-- Steps of reading; corrections made before a stop are kept. -/
abbrev FieldM := EStateM FieldStop FieldReader

namespace FieldReader

def take (count : Nat) : FieldM (List UInt8) := do
  let s ← get
  if s.rest.length < count then throw .cutOff
  set { s with rest := s.rest.drop count }
  return s.rest.take count

def number (count : Nat) : FieldM Nat :=
  numberOf <$> take count

def skip (count : Nat) : FieldM Unit := do
  let _ ← take count

def listed : FieldM Listing :=
  return (← get).listing

def correct (f : Listing → Listing) : FieldM Unit :=
  modify fun s => { s with listing := f s.listing }

def demand (condition : Bool) : FieldM Unit :=
  if condition then return () else throw .refused

/-!
# Large numbers
-/

/-- What stands in a directory line for a number that does not fit. -/
def tooLarge : Nat := 0xFFFFFFFF

/-- A field of the given length replaces a number: all three if it has room for them, else those
that do not fit the line. -/
def replaces (length value : Nat) : Bool :=
  24 ≤ length || value = tooLarge

def replaced (length value : Nat) : FieldM Nat :=
  if replaces length value then number 8 else return value

def largeNumbers (length : Nat) : FieldM Unit := do
  let l ← listed
  let size ← replaced length l.size
  correct ({ · with size })
  let compressedSize ← replaced length l.compressedSize
  correct ({ · with compressedSize })
  let header ← replaced length l.header
  correct ({ · with header })
  -- what was replaced is told by the numbers that the line had
  let used := 8 * ([l.size, l.compressedSize, l.header].filter (replaces length)).length
  demand (used ≤ length)
  skip (length - used)

/-!
# Times
-/

def fineTimes (length : Nat) : FieldM Unit := do
  demand (length = 32)
  skip 4
  demand ((← number 2) = 1)
  demand ((← number 2) = 24)
  -- three times, which are not kept
  skip 24

/-- Up to three times, marked in the first byte; they are not kept.  The marks count only when
there is more than one time. -/
def coarseTimes (length : Nat) : FieldM Unit := do
  let marks ← number 1
  demand (marks < 8)
  demand (length = 5 || length = 1 + 4 * (marks % 2 + marks / 2 % 2 + marks / 4))
  skip (length - 1)

/-!
# Encryption
-/

def encryption (length : Nat) : FieldM Unit := do
  demand (length = 7)
  let version ← number 2
  let vendor ← number 2
  let strength ← number 1
  let method ← number 2
  demand (vendor = 0x4541)
  demand (version = 1 || version = 2)
  demand (strength = 1 || strength = 2 || strength = 3)
  correct ({ · with locked := true, method })

/-!
# Unicode texts
-/

/-- A text in place of one whose checksum is given with it. -/
def unicodeText (length : Nat) (old : List UInt8) : FieldM (List UInt8 × String) := do
  skip 1
  let sum ← number 4
  demand (5 ≤ length)
  let bytes ← take (length - 5)
  demand (sum = (checksum old).toNat)
  let some text := strictText? bytes | throw .refused
  return (bytes, text)

def unicodeComment (length : Nat) : FieldM Unit := do
  let (_, comment) ← unicodeText length (← listed).comment.toUTF8.toList
  correct ({ · with comment })

def unicodeName (length : Nat) : FieldM Unit := do
  let (rawName, name) ← unicodeText length (← listed).rawName
  correct ({ · with rawName, name })

/-!
# All fields
-/

def field : FieldM Unit := do
  let kind ← number 2
  let length ← number 2
  match kind with
  | 0x0001 => largeNumbers length
  | 0x000A => fineTimes length
  | 0x5455 => coarseTimes length
  | 0x6375 => unicodeComment length
  | 0x7075 => unicodeName length
  | 0x9901 => encryption length
  | _ => skip length

/-- Reads all fields.  Each takes at least four bytes, so a count as large as the number of bytes is
never used up. -/
def fields : Nat → FieldM Unit
  | 0 => return ()
  | count + 1 => do
      if (← get).rest.isEmpty then
        return ()
      field
      fields count

end FieldReader

namespace Listing

def corrected? (l : Listing) (extra : List UInt8) : Option Listing :=
  match FieldReader.fields extra.length ⟨extra, l⟩ with
  | .ok () s => some s.listing
  | .error .cutOff s => some s.listing
  | .error .refused _ => none

end Listing
end Archive
end Bytecode
