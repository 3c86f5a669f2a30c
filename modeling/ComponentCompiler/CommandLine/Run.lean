import ComponentCompiler.CommandLine.Arguments
import ComponentCompiler.Host.Basic

/-!
This module contains the run of the command line: each file is compiled, its module and its route
are written, and the console tells about it.
-/

namespace ComponentCompiler

namespace Compilation

/-- Does what a compilation asks for, and tells which artifacts were saved where. -/
def perform [Monad m] (host : Host m) (log : Log.Entry → m Unit) :
    List Event → m (List (Stage × String))
  | [] => return []
  | .log entry :: events => do
    log entry
    perform host log events
  | .save stage path text :: events => do
    match ← host.write path text with
    | .ok () =>
      log (savedEntry stage path)
      return (stage, path) :: (← perform host log events)
    | .error e =>
      log (notSavedEntry stage e.message)
      perform host log events

end Compilation

namespace CommandLine

def usage : String :=
  "usage: auwlac [-h] [-o OUTPUT_FILE] [-c \x7b1,2,3\x7d] [-v] [--log-file LOG_FILE]\n" ++
  "              [input_files ...]\n"

def help : String :=
  usage ++ "\n" ++
  "Compile auwla component files (.tsx) into builder-API modules.\n" ++
  "\n" ++
  "positional arguments:\n" ++
  "  input_files           The component files to compile. Omit to read from\n" ++
  "                        stdin.\n" ++
  "\n" ++
  "options:\n" ++
  "  -h, --help            show this help message and exit\n" ++
  "  -o OUTPUT_FILE, --output OUTPUT_FILE\n" ++
  "                        The output path. Only valid with a single input.\n" ++
  "  -c \x7b1,2,3\x7d, --compile \x7b1,2,3\x7d\n" ++
  "                        Stop after a specific stage and save its artifact as\n" ++
  "                        JSON. '1' for Parsed Source Document. '2' for Scoped\n" ++
  "                        Document. '3' for Analysed Markup. Omitting this flag\n" ++
  "                        runs the full pipeline and writes the compiled module.\n" ++
  "  -v, --verbose         Enable debug logging.\n" ++
  "  --log-file LOG_FILE   Also write the log to this file.\n"

inductive Color where
  | red
  | green
  | yellow
  | cyan

def Color.start : Color → String
  | red => "\x1b[91m"
  | green => "\x1b[92m"
  | yellow => "\x1b[93m"
  | cyan => "\x1b[96m"

def colored (color : Color) (text : String) : String :=
  s!"{color.start}{text}\x1b[0m\n"

def stageTitle : Stage → String
  | .document => "1 (Parsed Source Document)"
  | .scopes => "2 (Scoped Document)"
  | .markup => "3 (Analysed Markup)"
  | .module => "4 (Module)"

inductive Exit where
  | status (code : Nat)
  | fault (error : FileError)
  deriving DecidableEq, Repr

def unifyBreaks : List Char → List Char
  | [] => []
  | '\r' :: '\n' :: cs => '\n' :: unifyBreaks cs
  | '\r' :: cs => '\n' :: unifyBreaks cs
  | c :: cs => c :: unifyBreaks cs

def outputPath (input : Option String) (output : Option String) : String :=
  match output, input with
  | none, none | some "", none => "stdin.compiled.ts"
  | none, some file | some "", some file => Path.stem file ++ ".compiled.ts"
  | some path, _ => path

/-- Where the route is written: beside the module. -/
def routePath (output : String) : String :=
  let base :=
    if Text.endsWith output ".compiled.ts" then Text.slice output 0 (output.length - 12)
    else Path.stem output
  base ++ ".route.json"

def parentPath (path : String) : String :=
  String.intercalate "/" (Path.parts path).dropLast

def diagnosticLine (d : Diagnostic) : String :=
  colored (if d.isError then .red else .yellow) d.format

variable {m : Type → Type} [Monad m]

def log (host : Host m) (s : Settings) (entry : Log.Entry) : m Unit := do
  if entry.isShown s.verbose then
    host.err entry.consoleLine
  if let .at path := s.logFile then
    let line := entry.fileLine (← host.now)
    let _ ← host.append (Path.absolute host.directory path) line

def writeOutputs (host : Host m) (s : Settings) (input : Option String) (name : String)
    (c : Compilation) (code : String) : ExceptT FileError m Bool := do
  let output := Path.absolute host.directory (outputPath input s.output)
  ExceptT.mk (host.makeDirectory (parentPath output))
  ExceptT.mk (host.write output code)
  if c.hasErrors then
    host.err (colored .red s!"--- COMPILED WITH ERRORS: {name} ---")
  else
    host.out (colored .green "--- Compilation Successful ---")
  host.out s!"Module written to {output}\n"
  if let some route := c.route then
    let path := routePath output
    ExceptT.mk (host.write path route.toJson.document)
    host.out s!"Route '{route.path}' written to {path}\n"
  return !c.hasErrors

/-- Compiles one input and writes its outputs. The result tells whether there were no errors. -/
def compileOne (host : Host m) (s : Settings) (input : Option String) :
    ExceptT FileError m Bool := do
  let name := input.getD "stdin"
  host.out s!"--- Compiling {name} ---\n"
  let source ←
    match input with
    | some file => ExceptT.mk (host.read file)
    | none => ExceptT.lift host.input
  let request : Compilation.Request :=
    { source := String.ofList (unifyBreaks source.toList), file := Compilation.fileName input
      stop := s.stop }
  let c := Compilation.run request
  let saved ← ExceptT.lift (Compilation.perform host (log host s) c.events)
  for d in c.diagnostics do
    host.err (diagnosticLine d)
  for (stage, path) in saved do
    host.out s!"--- Saved artifact '{stage.name}' to {path} ---\n"
  match s.stop, c.code with
  | some stage, _ =>
    if c.hasErrors then
      host.err (colored .red s!"--- COMPILATION FAILED: {name} ---")
      return false
    else
      host.out
        (colored .green s!"--- Compilation to stage '{stageTitle stage}' successful ---")
      return true
  | none, none =>
    host.err (colored .red s!"--- COMPILATION FAILED: {name} ---")
    return false
  | none, some code => writeOutputs host s input name c code

/-- Compiles the inputs in turn. A file that is not there does not keep the others from being
compiled, any other fault of a file does. -/
def compileAll (host : Host m) (s : Settings) : Bool → List (Option String) → m Exit
  | succeeded, [] => return .status (if succeeded then 0 else 1)
  | succeeded, input :: inputs => do
    match ← (compileOne host s input).run with
    | .ok succeeds => compileAll host s (succeeds && succeeded) inputs
    | .error (.system .notFound _) =>
      let name := input.getD "None"
      host.err (colored .red s!"ERROR: Component file '{name}' not found.")
      compileAll host s false inputs
    | .error e => return .fault e

/-- An empty name stands for the standard input, as no name at all does. -/
def inputs (s : Settings) : List (Option String) :=
  if s.files.isEmpty then [none] else s.files.map fun file => if file = "" then none else some file

def openLog (host : Host m) (s : Settings) : m (Except FileError Unit) :=
  match s.logFile with
  | .none => return .ok ()
  | .at path => host.append (Path.absolute host.directory path) ""
  | .nameless => return .error .noPath

def run (host : Host m) (arguments : List String) : m Exit := do
  match Settings.ofArguments arguments host.isTerminal with
  | .error .help =>
    host.out help
    return .status 0
  | .error (.error e) =>
    host.err (usage ++ s!"auwlac: error: {e.message}\n")
    return .status 2
  | .ok s =>
    match ← openLog host s with
    | .error e => return .fault e
    | .ok () =>
      let result ← compileAll host s true (inputs s)
      let seconds ← host.elapsed
      host.out ("\n" ++ colored .cyan s!"--- Total Execution Time: {seconds} seconds ---")
      return result

end CommandLine
end ComponentCompiler
