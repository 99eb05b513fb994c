import Bytecode.Log
import Bytecode.Text.Quoted

/-!
# Options

What the words of a command line ask for.  Options stand before the first word that is handed to
the program; each has a value, which is written behind an equals sign or is the next word.
-/

namespace Bytecode
namespace CommandLine

/-- What takes a value. -/
inductive Setting where
  | classPath
  | logFile
  | logLevel
  | maxDepth
deriving DecidableEq

inductive Misuse where
  | unknownOption (word : String)
  | missingValue (setting : Setting)
  | badValue (setting : Setting) (value : String)
  | repeated (setting : Setting)
  | noMainClass
deriving DecidableEq

structure Options where
  classPath : List String
  logFile : String
  logLevel : Threshold
  maxDepth : Nat
  mainClass : String
  arguments : List String
deriving DecidableEq

namespace Options

def record (o : Options) : Record :=
  ⟨.debug, "Provided command line arguments: Args \x7b class_path: " ++
    Text.quoteList o.classPath ++ ", log_file: " ++ Text.quote o.logFile ++ ", log_level: " ++
    o.logLevel.label ++ ", max_stack_depth: " ++ toString o.maxDepth ++ ", main_class: " ++
    Text.quote o.mainClass ++ ", args: " ++ Text.quoteList o.arguments ++ " \x7d"⟩

end Options

inductive Order where
  | run (options : Options)
  | help
  | version
deriving DecidableEq

/-!
# Words
-/

inductive Word where
  /-- No option stands behind this word. -/
  | divider
  | help
  | version
  | set (setting : Setting) (value : Option String)
  | unknown
  | plain

namespace Setting

def ofName? : String → Option Setting
  | "classpath" => some classPath
  | "cp" => some classPath
  | "log-file" => some logFile
  | "log-level" => some logLevel
  | "max-stack-depth" => some maxDepth
  | _ => none

def name : Setting → String
  | classPath => "classpath"
  | logFile => "log-file"
  | logLevel => "log-level"
  | maxDepth => "max-stack-depth"

end Setting

namespace Word

/-- A word by what follows its two dashes: a name and perhaps a value behind an equals sign. -/
def ofLong (rest : List Char) : Word :=
  let name := String.ofList (rest.takeWhile (· ≠ '='))
  let value := match rest.dropWhile (· ≠ '=') with
    | [] => none
    | _ :: value => some (String.ofList value)
  match Setting.ofName? name, name, value with
  | some setting, _, _ => set setting value
  | none, "help", none => help
  | none, "version", none => version
  | none, _, _ => unknown

/-- A word by the letter behind its one dash and what follows. -/
def ofShort (letter : Char) (rest : List Char) : Word :=
  match letter, rest with
  | 'h', _ => help
  | 'V', _ => version
  | 'c', [] => set .classPath none
  | 'c', '=' :: value => set .classPath (some (String.ofList value))
  | 'c', value => set .classPath (some (String.ofList value))
  | _, _ => unknown

/-- The form of a word.  A dash alone is a plain word. -/
def ofText (text : String) : Word :=
  match text.toList with
  | ['-', '-'] => divider
  | '-' :: '-' :: rest => ofLong rest
  | '-' :: letter :: rest => ofShort letter rest
  | _ => plain

end Word

/-!
# Values
-/

def maxNumber : Nat := 18446744073709551615

/-- The number that digits spell, perhaps behind a plus sign. -/
def number? (text : String) : Option Nat :=
  let digits : List Char := match text.toList with
    | '+' :: rest => rest
    | all => all
  let n := digits.foldl (fun n c => 10 * n + (c.toNat - '0'.toNat)) 0
  if digits ≠ [] ∧ digits.all Char.isDigit ∧ n ≤ maxNumber then some n else none

/-- What was set so far. -/
structure Draft where
  classPath : List String
  logFile : Option String
  logLevel : Option Threshold
  maxDepth : Option Nat
  mainClass : Option String

namespace Draft

def empty : Draft :=
  ⟨[], none, none, none, none⟩

/-- The draft with a setting made.  Class paths add up, everything else is set once. -/
def set (d : Draft) (setting : Setting) (value : String) : Except Misuse Draft :=
  let bad := .error (.badValue setting value)
  let again := .error (.repeated setting)
  match setting with
  | .classPath =>
      let entries := value.splitOn ":"
      if entries.contains "" then bad else .ok { d with classPath := d.classPath ++ entries }
  | .logFile =>
      if d.logFile.isSome then again
      else if value = "" then bad
      else .ok { d with logFile := some value }
  | .logLevel =>
      if d.logLevel.isSome then again
      else
        match Threshold.ofName? value with
        | some level => .ok { d with logLevel := some level }
        | none => bad
  | .maxDepth =>
      if d.maxDepth.isSome then again
      else
        match number? value with
        | some depth => .ok { d with maxDepth := some depth }
        | none => bad

/-- The draft with defaults for what was not set.  The words are the main class, unless it is known
already, and the arguments of the program. -/
def finish (d : Draft) (words : List String) : Except Misuse Order :=
  match d.mainClass.toList ++ words with
  | [] => .error .noMainClass
  | mainClass :: arguments => .ok (.run {
      classPath := if d.classPath = [] then ["."] else d.classPath
      logFile := d.logFile.getD "javelin.log"
      logLevel := d.logLevel.getD (some .info)
      maxDepth := d.maxDepth.getD 1024
      mainClass
      arguments })

def read (d : Draft) : List String → Except Misuse Order
  | [] => d.finish []
  | word :: rest =>
      match Word.ofText word with
      | .divider => d.finish rest
      | .help => .ok .help
      | .version => .ok .version
      | .unknown => .error (.unknownOption word)
      | .set setting (some value) => do
          let d ← d.set setting value
          d.read rest
      | .set setting none =>
          match rest with
          | [] => .error (.missingValue setting)
          | value :: rest =>
              match Word.ofText value with
              | .plain => do
                  let d ← d.set setting value
                  d.read rest
              | _ => .error (.missingValue setting)
      | .plain =>
          if d.mainClass.isSome then d.finish (word :: rest)
          else read { d with mainClass := some word } rest

end Draft

def read (words : List String) : Except Misuse Order :=
  Draft.empty.read words

/-!
# Wording
-/

namespace Misuse

def message : Misuse → String
  | unknownOption word => "unexpected argument " ++ word
  | missingValue setting => "a value is required for --" ++ setting.name
  | badValue setting value => "invalid value " ++ value ++ " for --" ++ setting.name
  | repeated setting => "--" ++ setting.name ++ " cannot be used twice"
  | noMainClass => "the main class is missing"

end Misuse

def versionText : String :=
  "javelin 0.1.0\n"

def usageLine : String :=
  "Usage: javelin [OPTIONS] <MAIN_CLASS> [ARGS]..."

def helpText : String :=
  usageLine ++
  "\n\nArguments:\n" ++
  "  <MAIN_CLASS>  Main class, e.g. com.example.Main or com/example/Main\n" ++
  "  [ARGS]...     Arguments passed to main\n" ++
  "\nOptions:\n" ++
  "  -c, --classpath <CLASS_PATH>\n" ++
  "          Directories holding compiled classes; use ':' as separator [aliases: --cp]\n" ++
  "      --log-file <LOG_FILE>\n" ++
  "          [default: javelin.log]\n" ++
  "      --log-level <LOG_LEVEL>\n" ++
  "          off, error, warn, info, debug or trace [default: info]\n" ++
  "      --max-stack-depth <MAX_STACK_DEPTH>\n" ++
  "          [default: 1024]\n" ++
  "  -h, --help\n" ++
  "          Print help\n" ++
  "  -V, --version\n" ++
  "          Print version\n"

end CommandLine
end Bytecode
