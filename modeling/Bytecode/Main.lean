import Bytecode.CommandLine.Run

/-!
# The command line

Reads the files a run can look at, runs, prints, and writes the log.
-/

namespace Bytecode
namespace CommandLine

def addFile (files : FileTree) (path : String) : IO FileTree := do
  try
    let bytes ← IO.FS.readBinFile path
    return files.put path (.file bytes.toList)
  catch _ =>
    return files

/-- The tree with a directory at a path, unless something is there already. -/
def withDirectory (files : FileTree) (path : String) : FileTree :=
  match files.node path with
  | .ok _ => files
  | .error _ => files.put path (.directory [])

/-- Adds a directory on disk to a tree, with the classes and archives below it down to a depth. -/
def addDirectory : Nat → FileTree → IO.FS.DirEntry → IO FileTree
  | 0, files, directory => return withDirectory files directory.path.toString
  | depth + 1, files, directory => do
      try
        let mut files := withDirectory files directory.path.toString
        for entry in ← directory.path.readDir do
          let path := entry.path.toString
          if ← entry.path.isDir then
            files ← addDirectory depth files entry
          else if path.endsWith ".class" || Path.isArchive path then
            files ← addFile files path
        return files
      catch _ =>
        return files

def addEntry (files : FileTree) (entry : String) : IO FileTree := do
  if Path.fileName? entry = some "*" then
    addDirectory 1 files ⟨Path.parent entry, "."⟩
  else if Path.isArchive entry then
    addFile files entry
  else
    addDirectory 64 files ⟨entry, "."⟩

/-- The files a run can look at: the class path, and the directory of the log file. -/
def snapshot (words : List String) : IO FileTree := do
  let home := (← IO.currentDir).toString
  let mut files := FileTree.empty (Path.names home)
  if let .ok (.run options) := read words then
    for entry in options.classPath do
      files ← addEntry files entry
    files ← addDirectory 1 files ⟨Path.parent options.logFile, "."⟩
  return files

def perform (words : List String) : IO UInt32 := do
  let outcome := run (Nat.pow 2 62) (← snapshot words) words
  IO.print outcome.output
  for line in outcome.complaints do
    IO.eprintln line
  if let .ok (.run options) := read words then
    if let .ok bytes := outcome.files.contents options.logFile then
      try
        IO.FS.writeBinFile options.logFile ⟨bytes.toArray⟩
      catch _ =>
        pure ()
  return outcome.exitCode.toUInt32

end CommandLine
end Bytecode

def main (words : List String) : IO UInt32 :=
  Bytecode.CommandLine.perform words
