import Bytecode.Fault
import Bytecode.FileSystem.Path

/-!
# File trees

Files and directories as a value, with a working directory from which relative paths are taken.
-/

namespace Bytecode

inductive Node where
  | file (bytes : List UInt8)
  | directory (entries : List (String × Node))

namespace Node

/-- The node with another node put at a place below it; missing directories are made, and files in
the way are replaced by directories. -/
def insert : Node → List String → Node → Node
  | _, [], new => new
  | directory entries, name :: rest, new =>
      let old := (entries.lookup name).getD (directory [])
      directory ((name, old.insert rest new) :: entries.filter (·.1 ≠ name))
  | file _, name :: rest, new => directory [(name, (directory []).insert rest new)]

end Node

structure FileTree where
  root : Node
  /-- Names from the root to the working directory. -/
  workingDirectory : List String

structure Place where
  name : String
  node : Node

namespace FileTree

def empty (workingDirectory : List String) : FileTree :=
  ⟨(Node.directory []).insert workingDirectory (.directory []), workingDirectory⟩

/-!
# Walking
-/

def maxNameSize : Nat := 255

def maxPathSize : Nat := 4095

/-- The node of the last of the places passed, which is the first of the list. -/
def here (t : FileTree) (places : List Place) : Node :=
  match places with
  | [] => t.root
  | place :: _ => place.node

/-- Goes on from a place along names; the places passed are kept, the last one first. -/
def walk (t : FileTree) (places : List Place) : List String → Except FileFault (List Place)
  | [] => .ok places
  | name :: rest =>
      match t.here places with
      | .file _ => .error .notADirectory
      | .directory entries =>
          if name = "." then
            t.walk places rest
          else if name = ".." then
            -- the root is its own parent
            t.walk places.tail rest
          else if maxNameSize < name.utf8ByteSize then
            .error .nameTooLong
          else
            match entries.lookup name with
            | none => .error .notFound
            | some node => t.walk (⟨name, node⟩ :: places) rest

/-- Goes along names from where a path starts: the root or the working directory. -/
def walkFrom (t : FileTree) (path : String) (names : List String) :
    Except FileFault (List Place) := do
  let start ← if Path.isAbsolute path then .ok [] else t.walk [] t.workingDirectory
  t.walk start names

/-- The places along a path.  A slash at the end asks for a directory. -/
def resolve (t : FileTree) (path : String) : Except FileFault (List Place) := do
  if path.toList.contains (Char.ofNat 0) then .error .nulInPath
  if path = "" then .error .notFound
  if maxPathSize < path.utf8ByteSize then .error .nameTooLong
  t.walkFrom path (Path.names path ++ (if Path.wantsDirectory path then ["."] else []))

def node (t : FileTree) (path : String) : Except FileFault Node :=
  (t.resolve path).map t.here

/-!
# Reading
-/

def contents (t : FileTree) (path : String) : Except FileFault (List UInt8) := do
  match ← t.node path with
  | .file bytes => return bytes
  | .directory _ => .error .isADirectory

def isFile (t : FileTree) (path : String) : Bool :=
  match t.node path with
  | .ok (.file _) => true
  | _ => false

def list (t : FileTree) (path : String) : Except FileFault (List String) := do
  match ← t.node path with
  | .directory entries => return entries.map Prod.fst
  | .file _ => .error .notADirectory

/-!
# Writing
-/

def place (t : FileTree) (places : List Place) (names : List String) (new : Node) : FileTree :=
  { t with root := t.root.insert ((places.map Place.name).reverse ++ names) new }

/-- The tree with a node put at a path; missing directories are made. -/
def put (t : FileTree) (path : String) (new : Node) : FileTree :=
  let start := if Path.isAbsolute path then [] else t.workingDirectory
  t.place [] (Path.withoutDots (start ++ Path.names path)) new

/-- The tree with a file written, whose directory must exist. -/
def save (t : FileTree) (path : String) (bytes : List UInt8) : Except FileFault FileTree :=
  match t.resolve path with
  | .ok places =>
      match t.here places with
      | .file _ => .ok (t.place places [] (.file bytes))
      | .directory _ => .error .isADirectory
  | .error .notFound => do
      let names := Path.names path
      let some name := names.getLast? | .error .notFound
      let places ← t.walkFrom path names.dropLast
      if name = "." ∨ name = ".." then .error .notFound
      match t.here places with
      | .file _ => .error .notADirectory
      | .directory _ =>
          if Path.wantsDirectory path then .error .isADirectory
          return t.place places [name] (.file bytes)
  | .error cause => .error cause

end FileTree
end Bytecode
