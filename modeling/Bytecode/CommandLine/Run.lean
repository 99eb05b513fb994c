import Bytecode.ClassPath.Search
import Bytecode.CommandLine.Options
import Bytecode.Machine.Session

/-!
# Runs

A run of the command line over a tree of files: what it prints, how it ends, and the files
afterwards.
-/

namespace Bytecode
namespace CommandLine

structure Outcome where
  exitCode : UInt8
  output : String
  /-- Lines written beside the output. -/
  complaints : List String
  files : FileTree

structure LogFile where
  path : String
  threshold : Threshold

namespace LogFile

def write (log : Option LogFile) (files : FileTree) (records : List Record) : FileTree :=
  match log with
  | none => files
  | some file =>
      let text := Record.render file.threshold records
      match files.save file.path text.toUTF8.toList with
      | .ok files => files
      | .error _ => files

/-- The log file that options ask for, emptied, or the complaint that it cannot be created. -/
def create (files : FileTree) (options : Options) :
    Option LogFile × FileTree × List String :=
  match files.save options.logFile [] with
  | .ok files => (some ⟨options.logFile, options.logLevel⟩, files, [])
  | .error cause =>
      (none, files, ["Cannot create " ++ options.logFile ++ ": " ++ cause.message])

end LogFile

/-- Runs a program.  The log is written as the run goes on, so a class that is looked for in the
log file finds there what was recorded before. -/
def runProgram (fuel : Nat) (files : FileTree) (options : Options) : Outcome :=
  let program : Host.Program := ⟨options.mainClass, options.arguments⟩
  let (log, files, complaints) := LogFile.create files options
  let (path, notes) := SearchPath.ofEntries files options.classPath
  let filesAt (records : Array Record) : FileTree :=
    LogFile.write log files (options.record :: notes ++ records.toList)
  let host : Host := {
    path := fun records name => path.find (filesAt records) name
    natives := Native.library
    maxDepth := options.maxDepth
    tracing := options.logLevel.admits .trace }
  let leave (exitCode : UInt8) (m : Machine) (complaints : List String) : Outcome :=
    ⟨exitCode, m.output, complaints, filesAt m.log⟩
  match host.start fuel program Machine.empty with
  | .ok _ m => leave 0 m complaints
  | .error (.fault f) m => leave 1 m (complaints ++ ["Error: " ++ f.message])
  | .error .outOfFuel m => leave 1 m (complaints ++ ["Error: out of fuel"])

def run (fuel : Nat) (files : FileTree) (words : List String) : Outcome :=
  match read words with
  | .ok (.run options) => runProgram fuel files options
  | .ok .help => ⟨0, helpText, [], files⟩
  | .ok .version => ⟨0, versionText, [], files⟩
  | .error misuse => ⟨2, "", ["error: " ++ misuse.message, "", usageLine], files⟩

end CommandLine
end Bytecode
