import Bytecode.Archive.Directory
import Bytecode.Archive.Inflate

/-!
# Archives

Files packed into one.  The directory at the end lists the members; each member is stored as it is
or compressed.
-/

namespace Bytecode
namespace Archive

structure Member where
  listing : Listing
  /-- Where its contents start. -/
  contents : Nat

structure Zip where
  bytes : Array UInt8
  members : List Member

/-!
# The members
-/

def encryptedMethod : Nat := 99

/-- The directory line at `offset` and where the next one starts; `shift` is what stands before the
archive. -/
def listing? (bytes : Array UInt8) (shift offset : Nat) : Option (Listing × Nat) := do
  guard (Signature.line.isAt bytes offset)
  let flags ← number? bytes (offset + 8) 2
  let method ← number? bytes (offset + 10) 2
  let checksum ← number? bytes (offset + 16) 4
  let compressedSize ← number? bytes (offset + 20) 4
  let size ← number? bytes (offset + 24) 4
  let nameLength ← number? bytes (offset + 28) 2
  let extraLength ← number? bytes (offset + 30) 2
  let commentLength ← number? bytes (offset + 32) 2
  let header ← number? bytes (offset + 42) 4
  let rawName ← slice? bytes (offset + 46) nameLength
  let extra ← slice? bytes (offset + 46 + nameLength) extraLength
  let comment ← slice? bytes (offset + 46 + nameLength + extraLength) commentLength
  let unicode := flags / 2048 % 2 = 1
  let listing : Listing := {
    rawName
    name := decodeText unicode rawName
    comment := decodeText unicode comment
    encrypted := flags % 2 = 1
    locked := false
    method
    checksum := checksum.toUInt32
    size
    compressedSize
    header }
  let listing ← listing.corrected? extra
  -- this method stands for encrypted contents, and a field has to say how
  guard (listing.locked ∨ listing.method ≠ encryptedMethod)
  return ({ listing with header := listing.header + shift },
    offset + 46 + nameLength + extraLength + commentLength)

/-- The member of a listing.  It starts in front of the directory, and so do its contents. -/
def memberOf? (bytes : Array UInt8) (d : Directory) (l : Listing) : Option Member := do
  guard (l.header < d.start)
  guard (Signature.member.isAt bytes l.header)
  let nameLength ← number? bytes (l.header + 26) 2
  let extraLength ← number? bytes (l.header + 28) 2
  let contents := l.header + 30 + nameLength + extraLength
  guard (contents ≤ d.start)
  return ⟨l, contents⟩

def members? (bytes : Array UInt8) (d : Directory) (offset : Nat) : Nat → Option (List Member)
  | 0 => some []
  | count + 1 => do
      let (listing, next) ← listing? bytes d.shift offset
      let first ← memberOf? bytes d listing
      let rest ← members? bytes d next count
      return first :: rest

def Directory.members? (bytes : Array UInt8) (d : Directory) : Option (List Member) := do
  guard d.consistent
  Archive.members? bytes d d.start d.count

/-!
# Opening
-/

/-- The members by the last end record, of those that start before `offset`, which leads to a
readable directory.  `failure` is what was wrong with the records behind, as far as they led to no
directory at all; a record that is cut off does not count once there is another failure. -/
def search (bytes : Array UInt8) (failure : Option ZipError) :
    Nat → Except ZipError (List Member)
  | 0 => .error (failure.getD (.invalid "Could not find EOCD"))
  | offset + 1 =>
      if !Signature.ending.isAt bytes offset then
        search bytes failure offset
      else
        match EndRecord.read bytes offset with
        | .error e => search bytes (some (failure.getD e)) offset
        | .ok r =>
            match r.locate bytes offset with
            | .error e => search bytes (some e) offset
            | .ok d =>
                match d.members? bytes with
                | some members => .ok members
                | none => search bytes none offset

namespace Zip

def ofBytes (bytes : List UInt8) : Except ZipError Zip :=
  let bytes := bytes.toArray
  (search bytes none bytes.size).map (Zip.mk bytes)

/-!
# Reading
-/

/-- The member of a name; of several the last one counts. -/
def member? (z : Zip) (name : String) : Option Member :=
  z.members.reverse.find? (·.listing.name == name)

def read (z : Zip) (m : Member) : Except ZipError (List UInt8) := do
  let l := m.listing
  if l.encrypted then .error (.unsupported "Password required to decrypt file")
  if l.method ≠ 0 ∧ l.method ≠ 8 then .error (.unsupported "Compression method not supported")
  if l.locked then .error .wrongPassword
  let data := z.bytes.extract m.contents (m.contents + l.compressedSize)
  let contents ←
    if l.method = 0 then
      pure data.toList
    else
      match inflate data with
      | .ok contents => pure contents
      | .error cause => .error (.file cause)
  if checksum contents = l.checksum then return contents else .error (.file .badChecksum)

end Zip
end Archive
end Bytecode
