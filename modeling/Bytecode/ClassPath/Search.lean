import Bytecode.Archive.Zip
import Bytecode.ClassPath.Basic
import Bytecode.FileSystem.Tree
import Bytecode.Log

/-!
# Search paths

Directories and archives in which classes are looked for, in the order in which they are given.
The first that holds a class wins.
-/

namespace Bytecode

inductive Source where
  | directory (root : String)
  | archive (path : String) (zip : Archive.Zip)

namespace Source

def fileOf (name : String) : String :=
  name ++ ".class"

def zipFault (path : String) : Archive.ZipError → Fault
  | .file cause => .file cause
  | e => .malformed (.archive path e.reason)

def openArchive (t : FileTree) (path : String) : Except Fault Source := do
  match t.contents path with
  | .error cause => .error (.file cause)
  | .ok bytes =>
      match Archive.Zip.ofBytes bytes with
      | .error e => .error (zipFault path e)
      | .ok zip => return .archive path zip

def find (t : FileTree) (name : String) : Source → Except Fault (List UInt8)
  | directory root =>
      match t.contents (Path.join root (fileOf name)) with
      | .ok bytes => .ok bytes
      | .error .notFound => .error (.classNotFound name)
      | .error cause => .error (.file cause)
  | archive path zip =>
      match zip.member? (fileOf name) with
      | none => .error (.classNotFound name)
      | some member =>
          match zip.read member with
          | .ok bytes => .ok bytes
          | .error e => .error (zipFault path e)

end Source

abbrev SearchPath := List Source

namespace SearchPath

/-- Paths an entry stands for: `dir/*` is all archives in `dir`, by name.  A directory that cannot
be listed stands for nothing and is noted. -/
def expand (t : FileTree) (entry : String) : List String × List Record :=
  if Path.fileName? entry ≠ some "*" then
    ([entry], [])
  else
    let directory := Path.parent entry
    match t.list directory with
    | .ok names =>
        let sorted := names.mergeSort fun a b => !decide (b < a)
        let paths := sorted.map (Path.join directory)
        (paths.filter fun path => t.isFile path && Path.isArchive path, [])
    | .error cause =>
        ([], [⟨.warn, "Cannot expand classpath entry " ++ Text.quote entry ++ ": " ++
          cause.message⟩])

/-- The place at a path.  An archive that cannot be opened is skipped and noted. -/
def sourceAt (t : FileTree) (path : String) : SearchPath × List Record :=
  if Path.isArchive path then
    match Source.openArchive t path with
    | .ok source => ([source], [])
    | .error f =>
        ([], [⟨.warn, "Skipping classpath entry " ++ Text.quote path ++ ": " ++ f.message⟩])
  else
    ([.directory path], [])

/-- The places that entries stand for, and what was noted on the way. -/
def ofEntries (t : FileTree) (entries : List String) : SearchPath × List Record :=
  let parts := entries.map fun entry =>
    let (paths, notes) := expand t entry
    let sources := paths.map (sourceAt t)
    (sources.flatMap Prod.fst, notes ++ sources.flatMap Prod.snd)
  (parts.flatMap Prod.fst, parts.flatMap Prod.snd)

/-- Bytes of a class: the first place that does not lack it decides. -/
def find (t : FileTree) (name : String) : SearchPath → Except Fault (List UInt8)
  | [] => .error (.classNotFound name)
  | source :: rest =>
      match source.find t name with
      | .error (.classNotFound _) => find t name rest
      | found => found

end SearchPath
end Bytecode
