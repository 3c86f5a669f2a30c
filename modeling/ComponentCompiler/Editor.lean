import ComponentCompiler.Compilation
import ComponentCompiler.Uri

/-!
This module contains what an editor is told about an open file.
-/

namespace ComponentCompiler
namespace Editor

/-- A problem as an editor shows it; lines and characters count from 0. -/
structure Notice where
  start : Nat × Nat
  stop : Nat × Nat
  message : String
  severity : Severity
  code : String
  deriving DecidableEq, Repr

/-- A problem without a place is shown at the top of the file. -/
def Notice.of (d : Diagnostic) : Notice :=
  let (start, stop) :=
    match d.span with
    | some s => ((s.startLine - 1, s.startColumn - 1), (s.endLine - 1, s.endColumn - 1))
    | none => ((0, 0), (0, 100))
  { start, stop, message := d.problem.message, severity := d.problem.severity
    code := d.problem.code }

def check (uri text : String) : Except Uri.AuthorityError (List Notice) := do
  let file := Compilation.fileName (some (← Uri.toPath uri))
  return (Compilation.run { source := text, file }).diagnostics.map .of

end Editor
end ComponentCompiler
