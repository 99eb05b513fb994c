/-!
# Log records

Lines a run writes beside its output, each with a level.
-/

namespace Bytecode

/-- Importance of a record, the most important first. -/
inductive LogLevel where
  | error
  | warn
  | info
  | debug
  | trace
deriving DecidableEq

namespace LogLevel

def rank : LogLevel → Nat
  | error => 1
  | warn => 2
  | info => 3
  | debug => 4
  | trace => 5

def name : LogLevel → String
  | error => "ERROR"
  | warn => "WARN"
  | info => "INFO"
  | debug => "DEBUG"
  | trace => "TRACE"

def all : List LogLevel :=
  [error, warn, info, debug, trace]

end LogLevel

/-- Which records are kept: those down to a level, or none. -/
abbrev Threshold := Option LogLevel

namespace Threshold

def name : Threshold → String
  | some level => level.name
  | none => "OFF"

def label (t : Threshold) : String :=
  match t.name.toList with
  | [] => ""
  | first :: rest => String.ofList (first :: rest.map Char.toLower)

/-- The threshold of a name; the case of letters does not matter. -/
def ofName? (text : String) : Option Threshold :=
  (none :: LogLevel.all.map some).find? fun t =>
    name t = String.ofList (text.toList.map Char.toUpper)

def admits (t : Threshold) (level : LogLevel) : Bool :=
  match t with
  | some most => level.rank ≤ most.rank
  | none => false

end Threshold

structure Record where
  level : LogLevel
  text : String
deriving DecidableEq

namespace Record

def line (r : Record) : String :=
  "[" ++ r.level.name ++ "] " ++ r.text ++ "\n"

def render (threshold : Threshold) (records : List Record) : String :=
  String.join ((records.filter fun r => threshold.admits r.level).map line)

end Record
end Bytecode
