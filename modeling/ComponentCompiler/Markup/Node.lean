import ComponentCompiler.Span

/-!
This module contains markup trees as they are written. Attribute values and slots hold their source
text.
-/

namespace ComponentCompiler
namespace Markup

inductive Attribute where
  | string (span : Span) (name value : String)
  | expression (span : Span) (name value : String)
  | boolean (span : Span) (name : String)
  | spread (span : Span) (value : String)
  deriving DecidableEq, Repr

inductive Node where
  | element (span : Span) (tag : String) (attributes : List Attribute) (children : List Node)
  | fragment (span : Span) (children : List Node)
  | text (span : Span) (value : String)
  /-- A slot; the place is that of the text between its brackets. -/
  | slot (span : Span) (source : String)
  deriving Repr

def Node.span : Node → Span
  | element span .. | fragment span .. | text span .. | slot span .. => span

def Attribute.toJson : Attribute → Json
  | string span name value => encode span (.str name) "string" (.str value)
  | expression span name value => encode span (.str name) "expression" (.str value)
  | boolean span name => encode span (.str name) "boolean" .null
  | spread span value => encode span .null "spread" (.str value)
where
  encode (span : Span) (name : Json) (kind : String) (value : Json) : Json :=
    .obj [("span", span.toJson), ("name", name), ("kind", .str kind), ("value", value)]

mutual

def Node.toJson : Node → Json
  | .element span tag attributes children =>
    .obj
      [("span", span.toJson), ("type", .str "element"), ("tag", .str tag),
        ("attributes", .ofList Attribute.toJson attributes),
        ("children", .arr (Node.listToJson children))]
  | .fragment span children =>
    .obj
      [("span", span.toJson), ("type", .str "fragment"),
        ("children", .arr (Node.listToJson children))]
  | .text span value =>
    .obj [("span", span.toJson), ("type", .str "text"), ("value", .str value)]
  | .slot span source =>
    .obj [("span", span.toJson), ("type", .str "expression"), ("expression", .str source)]

def Node.listToJson : List Node → List Json
  | [] => []
  | node :: nodes => Node.toJson node :: Node.listToJson nodes

end

end Markup
end ComponentCompiler
