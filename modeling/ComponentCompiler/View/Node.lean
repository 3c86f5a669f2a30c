import ComponentCompiler.Diagnostic

/-!
This module contains markup after its analysis. Whatever way it was written in, a conditional is a
`conditional` and a repetition a `loop`; fragments are gone, and what can not be compiled is a
`placeholder`.
-/

namespace ComponentCompiler
namespace View

inductive Role where
  | text
  | attribute
  | condition
  deriving DecidableEq, Repr

def Role.name : Role → String
  | text => "text"
  | .attribute => "attribute"
  | condition => "condition"

/-- An expression with the reactive containers that it reads. -/
structure Expression where
  raw : String
  dependencies : List String
  role : Role
  deriving DecidableEq, Repr

def Expression.isReactive (e : Expression) : Bool :=
  !e.dependencies.isEmpty

inductive Property.Kind where
  | string
  | expression
  | boolean
  | spread
  deriving DecidableEq, Repr

def Property.Kind.name : Property.Kind → String
  | string => "string"
  | expression => "expression"
  | boolean => "boolean"
  | spread => "spread"

/-- A property of an element; a spread has no name. -/
structure Property where
  name : Option String
  kind : Property.Kind
  value : String
  isReactive : Bool := false
  dependencies : List String := []
  deriving DecidableEq, Repr

structure Event where
  name : String
  handler : String
  deriving DecidableEq, Repr

structure Tag where
  name : String
  props : List Property := []
  events : List Event := []
  key : Option String := none
  isComponent : Bool := false
  deriving DecidableEq, Repr

inductive Conditional.Idiom where
  | logicalAnd
  | ternary
  | explicitChain
  deriving DecidableEq, Repr

def Conditional.Idiom.name : Conditional.Idiom → String
  | logicalAnd => "logical-and"
  | ternary => "ternary"
  | explicitChain => "explicit-chain"

inductive Loop.Idiom where
  | reactiveMap
  | staticMap
  | eachHelper
  deriving DecidableEq, Repr

def Loop.Idiom.name : Loop.Idiom → String
  | reactiveMap => "reactive-map"
  | staticMap => "static-map"
  | eachHelper => "each-helper"

structure Loop where
  idiom : Loop.Idiom
  iterable : String
  isReactive : Bool
  dependencies : List String := []
  item : String
  index : Option String := none
  key : Option String := none
  keyParameter : Option String := none
  prelude : Option String := none
  deriving DecidableEq, Repr

inductive Node where
  | text (span : Option Span) (value : String)
  | expression (span : Option Span) (expression : Expression)
  | element (span : Option Span) (tag : Tag) (children : List Node)
  | conditional (span : Option Span) (idiom : Conditional.Idiom) (isStatic : Bool)
      (condition : Expression) (body : List Node) (elseIfs : List (Expression × List Node))
      (otherwise : Option (List Node))
  | loop (span : Option Span) (head : Loop) (body : List Node)
  | placeholder (span : Option Span) (raw reason : String)
  deriving Repr

structure Component where
  name : String
  root : List Node
  reactive : List String
  diagnostics : List Diagnostic
  deriving Repr

def Expression.toJson (e : Expression) : Json :=
  .obj
    [("raw_expression", .str e.raw), ("dependency_symbols", .texts e.dependencies),
      ("role", .str e.role.name)]

def Property.toJson (p : Property) : Json :=
  .obj
    [("name", .text? p.name), ("kind", .str p.kind.name), ("value", .str p.value),
      ("is_reactive", .bool p.isReactive), ("dependencies", .texts p.dependencies)]

def Event.toJson (e : Event) : Json :=
  .obj [("event_name", .str e.name), ("handler_expression", .str e.handler)]

def fields (span : Option Span) (type : String) (rest : List (String × Json)) : Json :=
  .obj (("span", .ofOption Span.toJson span) :: ("type", .str type) :: rest)

mutual

def Node.toJson : Node → Json
  | .text span value => fields span "text" [("value", .str value)]
  | .expression span e => fields span "text_expression" [("expression", e.toJson)]
  | .element span tag children =>
    fields span "element"
      [("tag", .str tag.name), ("props", .ofList Property.toJson tag.props),
        ("events", .ofList Event.toJson tag.events), ("children", .arr (Node.listToJson children)),
        ("key", .text? tag.key), ("is_component", .bool tag.isComponent)]
  | .conditional span idiom isStatic condition body elseIfs otherwise =>
    fields span "conditional"
      [("idiom", .str idiom.name), ("condition_expression", condition.toJson),
        ("is_static", .bool isStatic), ("then_branch", .arr (Node.listToJson body)),
        ("else_if_chain", .arr (Node.branchesToJson elseIfs)),
        ("else_branch", Node.otherwiseToJson otherwise)]
  | .loop span head body =>
    fields span "loop"
      [("idiom", .str head.idiom.name), ("iterable_expression", .str head.iterable),
        ("is_reactive_source", .bool head.isReactive),
        ("dependency_symbols", .texts head.dependencies), ("item_binding_name", .str head.item),
        ("index_binding_name", .text? head.index), ("key_expression", .text? head.key),
        ("key_parameter", .text? head.keyParameter), ("body_prelude", .text? head.prelude),
        ("body", .arr (Node.listToJson body))]
  | .placeholder span raw reason =>
    fields span "placeholder" [("raw_expression", .str raw), ("reason", .str reason)]

def Node.listToJson : List Node → List Json
  | [] => []
  | node :: nodes => Node.toJson node :: Node.listToJson nodes

def Node.branchesToJson : List (Expression × List Node) → List Json
  | [] => []
  | (condition, body) :: branches =>
    .obj [("condition", condition.toJson), ("body", .arr (Node.listToJson body))] ::
      Node.branchesToJson branches

def Node.otherwiseToJson : Option (List Node) → Json
  | none => .null
  | some body => .arr (Node.listToJson body)

end

def Component.toJson (c : Component) : Json :=
  .obj
    [("name", .str c.name), ("root", .arr (Node.listToJson c.root)),
      ("reactive_symbols", .texts c.reactive),
      ("diagnostics", .ofList Diagnostic.toJson c.diagnostics)]

end View
end ComponentCompiler
