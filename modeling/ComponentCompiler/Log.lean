import ComponentCompiler.Diagnostic

/-!
This module contains the records that the work on a file leaves in the log, and their lines on the
console and in a log file.
-/

namespace ComponentCompiler
namespace Log

inductive Level where
  | debug
  | info
  | warning
  | error
  | critical
  deriving DecidableEq, Repr

def Level.name : Level → String
  | debug => "DEBUG"
  | info => "INFO"
  | warning => "WARNING"
  | error => "ERROR"
  | critical => "CRITICAL"

def Level.rank : Level → Nat
  | debug => 0
  | info => 1
  | warning => 2
  | error => 3
  | critical => 4

structure Entry where
  level : Level
  /-- The part of the compiler that speaks. -/
  part : Option String
  message : String
  location : String := ""
  deriving DecidableEq, Repr

namespace Entry

def ofDiagnostic (part : Option String) (d : Diagnostic) : Entry where
  level := .debug
  part := part
  message :=
    s!"{d.problem.severity.name} {d.problem.area.name} [{d.problem.code}]: {d.problem.message}"
  location := d.location

def text (e : Entry) : String :=
  if e.location = "" then e.message else s!"{e.location}: {e.message}"

def partName (e : Entry) : String :=
  match e.part with
  | none | some "" => "auwlac"
  | some name => s!"auwlac.{name}"

def consoleLine (e : Entry) : String :=
  s!"[auwlac] {e.level.name} {e.text}\n"

def fileLine (time : String) (e : Entry) : String :=
  s!"{time} {e.level.name} {e.partName}: {e.text}\n"

/-- The console shows warnings and errors, and everything if it is asked to. -/
def isShown (verbose : Bool) (e : Entry) : Bool :=
  verbose || Level.warning.rank ≤ e.level.rank

end Entry

def console (verbose : Bool) (entries : List Entry) : String :=
  String.join ((entries.filter (Entry.isShown verbose)).map Entry.consoleLine)

end Log
end ComponentCompiler
