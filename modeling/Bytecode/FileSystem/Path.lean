/-!
# Paths

Paths are texts of names divided by slashes.  Empty names and single dots do not count, except for
a dot that leads a relative path.
-/

namespace Bytecode
namespace Path

/-- Names between slashes, the empty ones left out. -/
def names (path : String) : List String :=
  (path.splitOn "/").filter (· ≠ "")

def isAbsolute (path : String) : Bool :=
  path.toList.head? = some '/'

/-- The path ends with a slash, so it must lead to a directory. -/
def wantsDirectory (path : String) : Bool :=
  path.toList.getLast? = some '/'

def join (base path : String) : String :=
  if isAbsolute path || base = "" then path
  else if wantsDirectory base then base ++ path
  else base ++ "/" ++ path

def components (path : String) : List String :=
  match names path with
  | "." :: rest =>
      if isAbsolute path then rest.filter (· ≠ ".") else "." :: rest.filter (· ≠ ".")
  | all => all.filter (· ≠ ".")

/-- The names that lead to the same place without dots: a double dot takes back the name before
it. -/
def withoutDots (names : List String) : List String :=
  names.foldl (fun kept name =>
    if name = "." then kept
    else if name = ".." then kept.dropLast
    else kept ++ [name]) []

/-- The last name, unless it stands for a directory relative to others. -/
def fileName? (path : String) : Option String :=
  match (components path).getLast? with
  | some name => if name = "." ∨ name = ".." then none else some name
  | none => none

/-- Pieces between slashes without the last one that counts and all that do not count before it;
the first piece always stays. -/
def dropName : List String → List String
  | [] => []
  | first :: rest =>
      let idle := fun piece => piece = "" || piece = "."
      let inner := (rest.reverse.dropWhile idle).drop 1
      first :: (inner.dropWhile idle).reverse

def parent (path : String) : String :=
  match (components path).dropLast with
  | [] => if isAbsolute path then "/" else "."
  | _ => "/".intercalate (dropName (path.splitOn "/"))

/-- What follows the last dot of the last name, if something stands before that dot. -/
def extension? (path : String) : Option String := do
  let reversed := (← fileName? path).toList.reverse
  let after := reversed.takeWhile (· ≠ '.')
  let before := reversed.drop (after.length + 1)
  if before = [] then none else some (String.ofList after.reverse)

def isArchive (path : String) : Bool :=
  match extension? path with
  | some e =>
      let lower := String.ofList (e.toList.map Char.toLower)
      lower = "jar" || lower = "zip"
  | none => false

end Path
end Bytecode
