import Bytecode.Archive.ExtraField
import Bytecode.Fault

/-!
# Directories

The directory lists the members of an archive.  A record at the end of the archive says where it is.
The archive may stand behind other data, in which case all offsets are counted from its own start;
that start is found by looking for the directory from where it is said to be onward.
-/

namespace Bytecode
namespace Archive

inductive ZipError where
  | invalid (reason : String)
  | unsupported (reason : String)
  | wrongPassword
  | file (cause : FileFault)
deriving DecidableEq

namespace ZipError

def reason : ZipError → String
  | invalid reason => "invalid Zip archive: " ++ reason
  | unsupported reason => "unsupported Zip archive: " ++ reason
  | wrongPassword => "The password provided is incorrect"
  | file cause => cause.message

end ZipError

structure Directory where
  /-- What stands before the archive. -/
  shift : Nat
  start : Nat
  /-- Number of its lines. -/
  count : Nat
  /-- The numbers that lead to it do not contradict each other. -/
  consistent : Bool

/-!
# The end of the archive
-/

/-- Record at the end of an archive. -/
structure EndRecord where
  disk : Nat
  directoryDisk : Nat
  /-- Members listed on this disk. -/
  countHere : Nat
  count : Nat
  /-- Where the directory starts, from the start of the archive. -/
  start : Nat

namespace EndRecord

def size : Nat := 22

def numbers? (bytes : Array UInt8) (offset : Nat) : Option (EndRecord × Nat) := do
  let disk ← number? bytes (offset + 4) 2
  let directoryDisk ← number? bytes (offset + 6) 2
  let countHere ← number? bytes (offset + 8) 2
  let count ← number? bytes (offset + 10) 2
  let start ← number? bytes (offset + 16) 4
  let commentLength ← number? bytes (offset + 20) 2
  return (⟨disk, directoryDisk, countHere, count, start⟩, commentLength)

def read (bytes : Array UInt8) (offset : Nat) : Except ZipError EndRecord :=
  match numbers? bytes offset with
  | none => .error (.file .endOfFile)
  | some (r, commentLength) =>
      if offset + size + commentLength ≤ bytes.size then .ok r
      else .error (.invalid "EOCD comment exceeds file boundary")

/-- The numbers of the record may be too small for the archive. -/
def maybeLarge (r : EndRecord) : Bool :=
  r.count = 0xFFFF || r.start = 0xFFFFFFFF

/-- The directory of a record at `offset`.  An archive without members has none, and ends where its
directory would start. -/
def directory (bytes : Array UInt8) (offset : Nat) (r : EndRecord) : Except ZipError Directory :=
  let shifted (shift : Nat) : Directory :=
    ⟨shift, r.start + shift, r.countHere, r.disk = r.directoryDisk⟩
  if r.count = 0 then
    .ok (shifted (offset - r.start))
  else if offset ≤ r.start then
    .error (.invalid "Invalid CDFH offset in EOCD")
  else
    match Signature.line.between bytes r.start offset with
    | found :: _ => .ok (shifted (found - r.start))
    | [] => .error (.invalid "No CDFH found")

end EndRecord

/-!
# Large archives
-/

/-- Tells where the record with large numbers is. -/
structure Locator where
  directoryDisk : Nat
  /-- Where the record starts, from the start of the archive. -/
  record : Nat
  disks : Nat

namespace Locator

def size : Nat := 20

def before? (bytes : Array UInt8) (offset : Nat) : Option Locator := do
  guard (size ≤ offset)
  let offset := offset - size
  guard (Signature.locator.isAt bytes offset)
  return ⟨← number? bytes (offset + 4) 4, ← number? bytes (offset + 8) 8,
    ← number? bytes (offset + 16) 4⟩

end Locator

/-- Record at the end of an archive, with large numbers. -/
structure LargeEndRecord where
  /-- Length of the record without its first twelve bytes. -/
  length : Nat
  madeBy : Nat
  neededVersion : Nat
  disk : Nat
  directoryDisk : Nat
  countHere : Nat
  count : Nat
  start : Nat

namespace LargeEndRecord

def size : Nat := 56

def lineSize : Nat := 46

def numbers? (bytes : Array UInt8) (offset : Nat) : Option LargeEndRecord := do
  let length ← number? bytes (offset + 4) 8
  let madeBy ← number? bytes (offset + 12) 2
  let neededVersion ← number? bytes (offset + 14) 2
  let disk ← number? bytes (offset + 16) 4
  let directoryDisk ← number? bytes (offset + 20) 4
  let countHere ← number? bytes (offset + 24) 8
  let count ← number? bytes (offset + 32) 8
  let start ← number? bytes (offset + 48) 8
  return ⟨length, madeBy, neededVersion, disk, directoryDisk, countHere, count, start⟩

/-- The record at an offset.  It agrees with the locator at `stop`, which stands right behind it. -/
def read (bytes : Array UInt8) (l : Locator) (stop offset : Nat) :
    Except ZipError LargeEndRecord := do
  let some r := numbers? bytes offset | .error (.file .endOfFile)
  if r.length < size - 12 then .error (.invalid "Low EOCD64 record size")
  if stop - offset < r.length + 12 then .error (.invalid "EOCD64 extends beyond EOCD64 locator")
  if r.directoryDisk ≠ l.directoryDisk then
    .error (.invalid "Invalid EOCD64: inconsistency with Locator data")
  if r.length + 12 ≠ stop - offset then .error (.invalid "Invalid EOCD64: inconsistent length")
  if offset < r.count * lineSize + r.start then
    .error (.invalid "Invalid EOCD64: inconsistent number of files")
  return r

def firstDirectory (bytes : Array UInt8) (l : Locator) (stop : Nat) (failure : ZipError) :
    List Nat → Except ZipError Directory
  | [] => .error failure
  | offset :: rest =>
      match read bytes l stop offset with
      | .error e => firstDirectory bytes l stop e rest
      | .ok r =>
          let shift := offset - l.record
          .ok ⟨shift, r.start + shift, r.count, r.disk = r.directoryDisk &&
            r.countHere ≤ r.count && r.neededVersion ≤ r.madeBy⟩

def directory (bytes : Array UInt8) (l : Locator) (stop : Nat) : Except ZipError Directory := do
  if stop ≤ l.record then .error (.invalid "Invalid EOCD64 Locator CD offset")
  if 1 < l.disks then .error (.invalid "Multi-disk ZIP files are not supported")
  firstDirectory bytes l stop (.invalid "Could not find EOCD64")
    (Signature.largeEnding.between bytes l.record stop)

end LargeEndRecord

def EndRecord.locate (bytes : Array UInt8) (offset : Nat) (r : EndRecord) :
    Except ZipError Directory :=
  match if r.maybeLarge then Locator.before? bytes offset else none with
  | some l => LargeEndRecord.directory bytes l (offset - Locator.size)
  | none => r.directory bytes offset

end Archive
end Bytecode
