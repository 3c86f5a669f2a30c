import ComponentCompiler.Diagnostic
import ComponentCompiler.Path
import ComponentCompiler.Token.Basic

/-!
This module contains the ways in which the work on a file can end early. Most are errors at a place
in the file; the others show a fault of the compiler itself.
-/

namespace ComponentCompiler

def CompileError.at (problem : Problem) (text : String) (pos : Nat) (origin : Origin)
    (file : String) : CompileError :=
  { problem, span := some (origin.spanAt text.toList pos (some file)) }

inductive Failure where
  | compile (error : CompileError)
  /-- An error of reading that was not given a place in the file. -/
  | scan (error : ScanError)
  /-- A component reached the generator without its analysed markup. -/
  | missingMarkup (component : String)
  /-- An artifact was to be saved to a path with the character U+0000. -/
  | nullInPath
  deriving DecidableEq, Repr

def Failure.ofScan (error : ScanError) (text : String) (origin : Origin) (file : String) :
    Failure :=
  match error with
  | .problem problem pos => .compile (.at problem text pos origin file)
  | other => .scan other

def missingMarkupMessage (component : String) : String :=
  s!"No analysed markup for component '{component}'."

/-- What is told about a failure that has no place in the file. -/
def Failure.details : Failure → String
  | .compile e => e.message
  | .scan (.problem p _) => "ScanError: " ++ p.message
  | .scan .pastEnd => "IndexError: string index out of range"
  | .scan (.notBracket c) => s!"KeyError: '{c}'"
  | .missingMarkup component => "InternalCompilerError: " ++ missingMarkupMessage component
  | .nullInPath => "ValueError: " ++ Path.nullMessage

end ComponentCompiler
