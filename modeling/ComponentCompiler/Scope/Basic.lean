import ComponentCompiler.Diagnostic
import ComponentCompiler.Document.Basic

/-!
This module contains documents whose blocks are placed. The component scope holds what is declared
outside components, the UI scope of a component what is declared in its body.
-/

namespace ComponentCompiler
namespace Scope

/-- Where declarations outside components live: in the module, shared by all components, or in the
function of the page. -/
inductive Policy where
  | shared
  | page
  deriving DecidableEq, Repr

def Policy.name : Policy → String
  | shared => "shared"
  | page => "page"

def Policy.of (metadata : Page.Metadata) : Policy :=
  if metadata.isPage then page else shared

inductive Placement where
  | module
  | pageFunction
  deriving DecidableEq, Repr

def Placement.name : Placement → String
  | module => "module"
  | pageFunction => "page-function"

def Policy.placement : Policy → Placement
  | shared => .module
  | page => .pageFunction

/-- The scopes of the main component. -/
inductive Target where
  | componentScope
  | uiScope
  deriving DecidableEq, Repr

/-- A component other than the main one, with its blocks in order. -/
structure Secondary where
  component : Component
  uiBlocks : List Block
  deriving Repr

structure Scoped where
  file : String
  policy : Policy
  placement : Placement
  metadata : Page.Metadata
  imports : List Import
  moduleStatements : List Block
  componentBlocks : List Block
  uiBlocks : List Block
  main : Component
  secondary : List Secondary
  diagnostics : List Diagnostic
  deriving Repr

def Secondary.toJson (s : Secondary) : Json :=
  .obj [("component", s.component.toJson), ("ui_scope_blocks", .ofList Block.toJson s.uiBlocks)]

def Scoped.fields (s : Scoped) : List (String × Json) :=
  [("file_path", .str s.file), ("policy", .str s.policy.name),
    ("component_scope_placement", .str s.placement.name), ("metadata", s.metadata.toJson),
    ("imports", .ofList Import.toJson s.imports),
    ("module_statements", .ofList Block.toJson s.moduleStatements),
    ("component_scope_blocks", .ofList Block.toJson s.componentBlocks),
    ("ui_scope_blocks", .ofList Block.toJson s.uiBlocks), ("main_component", s.main.toJson),
    ("secondary_components", .ofList Secondary.toJson s.secondary),
    ("diagnostics", .ofList Diagnostic.toJson s.diagnostics)]

def Scoped.toJson (s : Scoped) : Json :=
  .obj s.fields

end Scope
end ComponentCompiler
