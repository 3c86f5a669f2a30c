import ComponentCompiler.Markup.Node
import ComponentCompiler.Page.Metadata

/-!
This module contains component files as they are read: imports, code blocks and components.
-/

namespace ComponentCompiler

inductive Block.Kind where
  | variable
  | function
  | expression
  deriving DecidableEq, Repr

def Block.Kind.name : Block.Kind → String
  | .variable => "variable"
  | .function => "function"
  | .expression => "expression"

inductive Block.Origin where
  | topLevel
  | componentBody
  deriving DecidableEq, Repr

def Block.Origin.name : Block.Origin → String
  | .topLevel => "top-level"
  | .componentBody => "component-body"

/-- A statement outside components or in a component's body, with the names that it declares and
those that it reads from outside. -/
structure Block where
  span : Span
  kind : Block.Kind
  source : String
  declares : List String
  references : List String
  origin : Block.Origin
  isExported : Bool
  /-- It declares a reactive container, such as `const count = ref(0)`. -/
  isReactive : Bool
  containsMarkup : Bool
  deriving DecidableEq, Repr

structure Parameter where
  span : Span
  source : String
  names : List String
  deriving DecidableEq, Repr

structure Import.Specifier where
  imported : String
  localName : String
  isType : Bool
  deriving DecidableEq, Repr

structure Import where
  span : Span
  module : String
  specifiers : List Import.Specifier
  typeOnly : Bool
  source : String
  deriving DecidableEq, Repr

structure Component where
  span : Span
  name : String
  isDefault : Bool
  isExported : Bool
  parameters : List Parameter
  body : List Block
  markup : Markup.Node
  deriving Repr

structure Document where
  file : String
  metadata : Page.Metadata
  imports : List Import
  /-- Declarations and expressions outside components. -/
  blocks : List Block
  components : List Component
  components_ne_nil : components ≠ []
  /-- Export statements that are passed on as they are. -/
  moduleStatements : List Block
  deriving Repr

/-- The name that a block is known by: the first that it declares, else its first line. -/
def Block.label (b : Block) : String :=
  match b.declares.head? with
  | none | some "" => String.ofList (b.source.toList.takeWhile (· ≠ '\n'))
  | some name => name

def Block.toJson (b : Block) : Json :=
  .obj
    [("span", b.span.toJson), ("kind", .str b.kind.name), ("source_text", .str b.source),
      ("declared_symbol", .text? b.declares.head?), ("declared_symbols", .texts b.declares),
      ("referenced_symbols", .texts b.references), ("origin", .str b.origin.name),
      ("is_exported", .bool b.isExported), ("is_reactive_container", .bool b.isReactive),
      ("contains_markup", .bool b.containsMarkup)]

def Parameter.toJson (p : Parameter) : Json :=
  .obj [("span", p.span.toJson), ("source_text", .str p.source), ("names", .texts p.names)]

def Import.Specifier.toJson (s : Import.Specifier) : Json :=
  .obj [("imported", .str s.imported), ("local", .str s.localName), ("is_type", .bool s.isType)]

def Import.toJson (i : Import) : Json :=
  .obj
    [("span", i.span.toJson), ("source", .str i.module),
      ("specifiers", .ofList Import.Specifier.toJson i.specifiers), ("type_only", .bool i.typeOnly),
      ("source_text", .str i.source)]

def Component.toJson (c : Component) : Json :=
  .obj
    [("span", c.span.toJson), ("name", .str c.name), ("is_default", .bool c.isDefault),
      ("is_exported", .bool c.isExported), ("parameters", .ofList Parameter.toJson c.parameters),
      ("body_blocks", .ofList Block.toJson c.body), ("returned_markup", c.markup.toJson)]

def Document.toJson (d : Document) : Json :=
  .obj
    [("file_path", .str d.file), ("metadata", d.metadata.toJson),
      ("imports", .ofList Import.toJson d.imports),
      ("top_level_blocks", .ofList Block.toJson d.blocks),
      ("components", .ofList Component.toJson d.components),
      ("module_statements", .ofList Block.toJson d.moduleStatements)]

end ComponentCompiler
