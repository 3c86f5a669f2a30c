import ComponentCompiler.Builder.Lowering
import ComponentCompiler.Failure
import ComponentCompiler.Output.Imports
import ComponentCompiler.Page.Route
import ComponentCompiler.Scope.Basic

/-!
This module contains the generated module of a document. After its imports come the blocks of the
component scope, unless they belong to the page function, then each component as a function that
returns `Component(...)`, and then the statements that are passed on.
-/

namespace ComponentCompiler
namespace Output

open Scope (Scoped)

/-- A component as a function: its blocks stand before the `return` or in the callback that builds
its content. -/
structure Function where
  header : String
  component : Component
  outerBlocks : List Block
  innerBlocks : List Block
  view : List View.Node
  deriving Repr

structure Layout where
  blocks : List Block
  functions : List Function
  statements : List Block
  deriving Repr

structure Module where
  code : String
  route : Option Page.Route
  diagnostics : List Diagnostic
  deriving DecidableEq, Repr

def Module.toJson (m : Module) : Json :=
  .obj
    [("code", .str m.code), ("route", .ofOption Page.Route.toJson m.route),
      ("diagnostics", .ofList Diagnostic.toJson m.diagnostics)]

abbrev Views := List (String × View.Component)

def viewOf (views : Views) (component : Component) : Except Failure (List View.Node) :=
  match views.lookup component.name with
  | some view => .ok view.root
  | none => .error (.missingMarkup component.name)

def plainHeader (component : Component) : String :=
  if component.isExported then "export function" else "function"

/-- The function of a page is the default export, whatever it was. -/
def mainHeader (doc : Scoped) : String :=
  if doc.placement = .pageFunction || doc.main.isDefault then "export default function"
  else plainHeader doc.main

def mainFunction (doc : Scoped) (views : Views) : Except Failure Function := do
  let outerBlocks := if doc.placement = .pageFunction then doc.componentBlocks else []
  return ⟨mainHeader doc, doc.main, outerBlocks, doc.uiBlocks, ← viewOf views doc.main⟩

def secondaryFunction (views : Views) (s : Scope.Secondary) : Except Failure Function := do
  return ⟨plainHeader s.component, s.component, [], s.uiBlocks, ← viewOf views s.component⟩

def Layout.of (doc : Scoped) (views : Views) : Except Failure Layout := do
  let blocks := if doc.placement = .pageFunction then [] else doc.componentBlocks
  let main ← mainFunction doc views
  let others ← doc.secondary.mapM (secondaryFunction views)
  return ⟨blocks, main :: others, doc.moduleStatements⟩

/-- A block outside functions keeps its `export`. -/
def exportedText (b : Block) : String :=
  if b.isExported then "export " ++ b.source else b.source

def markupWarning (component : Component) (b : Block) : Option Diagnostic :=
  if b.containsMarkup then some (.of (.markupOutsideReturn component.name) (some b.span)) else none

namespace Function

def blocks (f : Function) : List Block :=
  f.outerBlocks ++ f.innerBlocks

def code (f : Function) : List Builder.Code :=
  Builder.lowerAll f.view

def writeBlock (w : Writer) (b : Block) : Writer :=
  w.source b.source b.span.startColumn

def writeContent (f : Function) (w : Writer) : Writer :=
  let w := f.innerBlocks.foldl writeBlock w
  let w := if f.innerBlocks.isEmpty || f.view.isEmpty then w else w.blank
  w.writeAll (Builder.Code.linesAll f.code)

def writeBody (f : Function) (w : Writer) : Writer :=
  let w := f.outerBlocks.foldl writeBlock w
  let w := if f.outerBlocks.isEmpty then w else w.blank
  let w := w.line s!"return Component({Builder.Code.callback} \x7b"
  (w.indented f.writeContent).line "\x7d)"

def write (f : Function) (w : Writer) : Writer :=
  let parameters := Builder.commas (f.component.parameters.map (·.source))
  let w := w.line s!"{f.header} {f.component.name}({parameters}) \x7b"
  (w.indented f.writeBody).line "\x7d"

end Function

namespace Layout

/-- The texts of the blocks in the order in which they are written. -/
def sources (l : Layout) : List String :=
  l.blocks.map exportedText ++ (l.functions.flatMap Function.blocks).map (·.source)

def runtimeNames (l : Layout) : List String :=
  Builder.Code.runtimeNames (l.functions.flatMap Function.code)

def writeBlocks (blocks : List Block) (w : Writer) : Writer :=
  if blocks.isEmpty then w
  else (blocks.foldl (fun w b => w.source (exportedText b) b.span.startColumn) w).blank

def writeFunctions : List Function → Writer → Writer
  | [], w => w
  | [f], w => f.write w
  | f :: g :: fs, w => writeFunctions (g :: fs) (f.write w).blank

def writeStatements (blocks : List Block) (w : Writer) : Writer :=
  if blocks.isEmpty then w
  else blocks.foldl (fun w b => w.source b.source b.span.startColumn) w.blank

def body (l : Layout) : Writer :=
  writeStatements l.statements (writeFunctions l.functions (writeBlocks l.blocks {}))

def imports (l : Layout) (declarations : List Import) : Imports :=
  (Imports.needed l.runtimeNames (String.intercalate "\n" l.sources)).addAll declarations

def text (l : Layout) (declarations : List Import) : String :=
  let header := (Writer.writeAll {} (l.imports declarations).lines).blank
  Writer.text (header.lines ++ l.body.lines)

def diagnostics (l : Layout) (main : Component) : List Diagnostic :=
  l.blocks.filterMap (markupWarning main) ++
    l.functions.flatMap (fun f => f.blocks.filterMap (markupWarning f.component)) ++
    l.functions.flatMap fun f => Builder.lostAll f.view

end Layout

/-- The generated module of a document, as a page if the metadata say so. -/
def generate (doc : Scoped) (views : Views) (metadata : Page.Metadata) : Except Failure Module := do
  let layout ← Layout.of doc views
  return {
    code := layout.text doc.imports
    route := Page.Route.of? metadata doc.main.name (some doc.file)
    diagnostics := layout.diagnostics doc.main }

end Output
end ComponentCompiler
