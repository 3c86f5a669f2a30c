import ComponentCompiler.Problem

/-!
This module contains reported problems. A `Diagnostic` is collected and shown at the end, a
`CompileError` ends the work on a file and can be shown as a diagnostic.
-/

namespace ComponentCompiler

/-- The first file name that is given, an empty one not counting unless nothing else is left. -/
def fileOr (file : Option String) (span : Option Span) : Option String :=
  match file with
  | some "" | none => span.bind (·.file)
  | some name => some name

structure Diagnostic where
  problem : Problem
  span : Option Span
  file : Option String
  deriving DecidableEq, Repr

namespace Diagnostic

def of (problem : Problem) (span : Option Span := none) (file : Option String := none) :
    Diagnostic :=
  { problem, span, file := fileOr file span }

def isError (d : Diagnostic) : Bool :=
  d.problem.severity == .error

/-- File, line and column; the file alone when the place is not known. -/
def location (d : Diagnostic) : String :=
  let file :=
    match fileOr d.file d.span with
    | some "" | none => "<stdin>"
    | some name => name
  match d.span with
  | some span => s!"{file}:{span.startLine}:{span.startColumn}"
  | none => file

def format (d : Diagnostic) : String :=
  s!"{d.location}: {d.problem.severity.name} {d.problem.area.name}: {d.problem.message}"

def toJson (d : Diagnostic) : Json :=
  .obj
    [("kind", .str d.problem.area.name), ("code", .str d.problem.code),
      ("severity", .str d.problem.severity.name), ("message", .str d.problem.message),
      ("span", .ofOption Span.toJson d.span), ("file_path", .text? d.file)]

end Diagnostic

structure CompileError where
  problem : Problem
  span : Option Span := none
  file : Option String := none
  deriving DecidableEq, Repr

namespace CompileError

def toDiagnostic (e : CompileError) : Diagnostic :=
  .of e.problem e.span e.file

def message (e : CompileError) : String :=
  let file := fileOr e.file e.span
  match e.span, file with
  | some span, file =>
    let name := file.getD "None"
    s!"Error in '{name}' (Line: {span.startLine}, Column: {span.startColumn}):\n" ++
      e.problem.message
  | none, some "" | none, none => e.problem.message
  | none, some name => s!"Error in '{name}': " ++ e.problem.message

end CompileError

end ComponentCompiler
