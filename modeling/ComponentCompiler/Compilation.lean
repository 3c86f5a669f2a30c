import ComponentCompiler.Document.Parse
import ComponentCompiler.Log
import ComponentCompiler.Output.Module
import ComponentCompiler.Path
import ComponentCompiler.Scope.Analysis
import ComponentCompiler.Text.Quoted
import ComponentCompiler.View.Analysis

/-!
This module contains the compilation of a file in four stages. A compilation never fails: whatever
ends it early is one of its diagnostics. What it does to the outside, log records and artifacts to
be saved, is the list of its events.
-/

namespace ComponentCompiler

inductive Stage where
  | document
  | scopes
  | markup
  | module
  deriving DecidableEq, Repr

def Stage.name : Stage → String
  | document => "document"
  | scopes => "scopes"
  | markup => "markup"
  | module => "module"

def Stage.all : List Stage :=
  [document, scopes, markup, module]

def Stage.ofName? (name : String) : Option Stage :=
  all.find? (·.name == name)

namespace Compilation

structure Request where
  source : String
  file : String
  dump : List Stage := []
  /-- The stage to stop after, whose result is saved too. -/
  stop : Option Stage := none
  deriving DecidableEq, Repr

inductive Event where
  | log (entry : Log.Entry)
  | save (stage : Stage) (path text : String)
  deriving DecidableEq, Repr

def fileName : Option String → String
  | none | some "" => "<stdin>"
  | some name => name

end Compilation

structure Compilation where
  code : Option String := none
  route : Option Page.Route := none
  diagnostics : List Diagnostic := []
  finished : List Stage := []
  events : List Compilation.Event := []
  deriving DecidableEq, Repr

namespace Compilation

def hasErrors (c : Compilation) : Bool :=
  c.diagnostics.any (·.isError)

/-- Where the result of a stage is saved: beside the file. -/
def artifactPath (file : String) (stage : Stage) : String :=
  let base := if file = "<stdin>" then "stdin_output" else Path.stem file
  s!"{base}.{stage.name}.json"

def isSaved (r : Request) (stage : Stage) : Bool :=
  r.dump.contains stage || r.stop == some stage

/-! ### Log records -/

def debug (part message : String) : Log.Entry :=
  { level := .debug, part := some part, message }

def parsedEntry (d : Document) : Log.Entry :=
  let page := if d.metadata.isPage then "True" else "False"
  debug "parser" <|
    s!"Parsed {d.file}: {d.imports.length} import(s), {d.blocks.length} top-level block(s), " ++
      s!"{d.components.length} component(s), page={page}"

/-- A block in a list of blocks: the name that it declares, else its kind. -/
def shortLabel (b : Block) : String :=
  match b.declares.head? with
  | none | some "" => b.kind.name
  | some name => name

def scopedEntry (s : Scope.Scoped) : Log.Entry :=
  let labels (blocks : List Block) := Text.quotedList (blocks.map shortLabel)
  debug "scope" <|
    s!"Scoped {s.file} with {s.policy.name}: component scope {labels s.componentBlocks}, " ++
      s!"UI scope {labels s.uiBlocks}"

def analysedEntry (v : View.Component) : Log.Entry :=
  debug "markup" <|
    s!"Analysed markup of {v.name}: {v.root.length} root node(s), " ++
      s!"{v.diagnostics.length} diagnostic(s)"

def generatedEntry (file : String) (m : Output.Module) : Log.Entry :=
  let lines := m.code.toList.count '\n'
  let path := (m.route.map (·.path)).getD "None"
  debug "codegen" s!"Generated {lines} line(s) for {file} (route: {path})"

def savedEntry (stage : Stage) (path : String) : Log.Entry :=
  { level := .info, part := some "compiler"
    message := s!"Saved artifact '{stage.name}' to {path}" }

def notSavedEntry (stage : Stage) (reason : String) : Log.Entry :=
  { level := .error, part := some "compiler"
    message := s!"Could not save artifact '{stage.name}': {reason}" }

/-! ### Stages -/

def record (entries : List Log.Entry) (c : Compilation) : Compilation :=
  { c with events := c.events ++ entries.map .log }

def report (diagnostics : List Diagnostic) (c : Compilation) : Compilation :=
  { c with diagnostics := c.diagnostics ++ diagnostics }

def fail (r : Request) (failure : Failure) (c : Compilation) : Compilation :=
  match failure with
  | .compile e =>
    let entry := debug "compiler" s!"Compilation of {r.file} stopped: {e.problem.message}"
    (c.record [entry]).report [e.toDiagnostic]
  | other =>
    let entry : Log.Entry :=
      { level := .error, part := some "compiler"
        message := s!"Unexpected error while compiling {r.file}" }
    (c.record [entry]).report [.of (.internal other.details) none (some r.file)]

/-- Completes a stage and goes on with `next`, unless there is no place to save the result at. -/
def complete (r : Request) (stage : Stage) (entries : List Log.Entry) (artifact : Json)
    (c : Compilation) (next : Compilation → Compilation) : Compilation :=
  let done := debug "compiler" s!"Stage '{stage.name}' finished for {r.file}"
  let c := { c.record (entries ++ [done]) with finished := c.finished ++ [stage] }
  let path := artifactPath r.file stage
  if !isSaved r stage then
    next c
  else if Path.hasNull path then
    c.fail r .nullInPath
  else
    next { c with events := c.events ++ [.save stage path artifact.document] }

def viewsJson (views : Output.Views) : Json :=
  .obj (views.map fun (name, view) => (name, view.toJson))

def generateStage (r : Request) (doc : Scope.Scoped) (views : Output.Views) (c : Compilation) :
    Compilation :=
  match Output.generate doc views doc.metadata with
  | .error failure => c.fail r failure
  | .ok m =>
    c.complete r .module [generatedEntry doc.file m] m.toJson fun c =>
      { c.report m.diagnostics with code := some m.code, route := m.route }

def markupStage (r : Request) (document : Document) (doc : Scope.Scoped) (c : Compilation) :
    Compilation :=
  let (views, failure) := View.analyseAll document
  let entries := views.map analysedEntry
  match failure with
  | some failure => (c.record entries).fail r failure
  | none =>
    let named := View.byName views
    c.complete r .markup entries (viewsJson named) fun c =>
      let c := c.report (named.flatMap (·.2.diagnostics))
      if r.stop = some .markup then c else c.generateStage r doc named

def scopesStage (r : Request) (document : Document) (c : Compilation) : Compilation :=
  match Scope.analyse document (.of document.metadata) with
  | .error failure => c.fail r failure
  | .ok doc =>
    c.complete r .scopes [scopedEntry doc] doc.toJson fun c =>
      let c := c.report doc.diagnostics
      if r.stop = some .scopes then c else c.markupStage r document doc

def documentStage (r : Request) (c : Compilation) : Compilation :=
  match Document.parse r.source r.file with
  | .error failure => c.fail r failure
  | .ok document =>
    c.complete r .document [parsedEntry document] document.toJson fun c =>
      if r.stop = some .document then c else c.scopesStage r document

/-- Compiles a file. The diagnostics are logged at the end. -/
def run (r : Request) : Compilation :=
  let c := documentStage r {}
  c.record (c.diagnostics.map (.ofDiagnostic (some "compiler")))

end Compilation
end ComponentCompiler
