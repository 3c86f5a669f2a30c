import ComponentCompiler.Builder.Code
import ComponentCompiler.Name.Pattern
import ComponentCompiler.Text.Case
import ComponentCompiler.View.Node

/-!
This module contains the compilation of analysed markup to builder code. A node becomes one piece of
code; what reads reactive containers becomes a derived value, a `When` or a `List`.
-/

namespace ComponentCompiler
namespace Builder

open View (Node Expression Property Tag Loop)

/-- The type of the values that an expression in the given role has. -/
def valueType : View.Role → String
  | .text | .attribute => "string"
  | .condition => "boolean"

def value (expression : String) (dependencies : List String) (role : View.Role) : Value :=
  if dependencies.isEmpty then .plain expression
  else .derived ⟨expression, dependencies, valueType role⟩

def propertyValue (p : Property) : Value :=
  if p.isReactive then .derived ⟨p.value, p.dependencies, valueType .attribute⟩ else .plain p.value

def methodName (tag : String) : String :=
  match tag.toList with
  | [] => ""
  | c :: cs => String.ofList (Text.toUpper c ++ cs)

/-- Text as it is written in a template literal. -/
def templateText : List Char → List Char
  | [] => []
  | '\\' :: cs => '\\' :: '\\' :: templateText cs
  | '\x60' :: cs => '\\' :: '\x60' :: templateText cs
  | '$' :: '\x7b' :: cs => '\\' :: '$' :: '\x7b' :: templateText cs
  | c :: cs => c :: templateText cs

/-- What a node contributes to a template literal, if it is text or an expression. -/
def templatePart? : Node → Option (List Char × List String)
  | .text _ value => some (templateText value.toList, [])
  | .expression _ e => some (['$', '\x7b'] ++ e.raw.toList ++ ['\x7d'], e.dependencies)
  | _ => none

/-- The value of content that consists of text and expressions only. -/
def textValue? (children : List Node) : Option Value :=
  match children with
  | [] => none
  | [.text _ value] => some (.plain (Json.literal value))
  | _ => do
    let parts ← children.mapM templatePart?
    let template := '\x60' :: (parts.flatMap (·.1) ++ ['\x60'])
    return value (String.ofList template) (distinct (parts.flatMap (·.2))) .text

def fieldName (p : Property) : String :=
  p.name.getD "None"

def elementEntry (p : Property) : Entry :=
  if p.kind = .spread then .spread p.value else .field (fieldName p) (propertyValue p)

/-- A component is given its properties as they are. -/
def componentEntry (p : Property) : Entry :=
  if p.kind = .spread then .spread p.value else .field (fieldName p) (.plain p.value)

def handlerEntries (events : List View.Event) : List Entry :=
  if events.isEmpty then [] else [.handlers (events.map fun e => (e.name, e.handler))]

def textEntries (children : List Node) : List Entry :=
  ((textValue? children).map fun text => Entry.field "text" text).toList

def isLink (tag : Tag) : Bool :=
  tag.name == "a" && tag.props.any fun p => p.name == some "href"

/-- A link has its targets, its text and its class names. -/
def linkConfig (tag : Tag) (children : List Node) : List Entry :=
  let targets := (tag.props.filter (·.name == some "href")).map fun p =>
    Entry.field "to" (propertyValue p)
  let classes := (tag.props.filter (·.name == some "className")).map fun p =>
    Entry.field "className" (propertyValue p)
  let entries := targets.reverse ++ classes
  entries.take 1 ++ textEntries children ++ entries.drop 1

def guard (e : Expression) : Derived :=
  ⟨e.raw, e.dependencies, valueType .condition⟩

/-- A chain of branches. One with a reactive condition is a `When`, and what follows it is in its
`Else`; one without is a native `if`, and reactive branches that follow it are in its `else`. -/
def branch (condition : Expression) (body : List Code) (rest : List (Expression × List Code))
    (otherwise : Option (List Code)) : Code :=
  match rest with
  | [] =>
    if condition.isReactive then .reactive (guard condition) body otherwise
    else .native condition.raw body [] otherwise
  | (next, nextBody) :: others =>
    if condition.isReactive then
      .reactive (guard condition) body (some [branch next nextBody others otherwise])
    else if rest.any (·.1.isReactive) then
      .native condition.raw body [] (some [branch next nextBody others otherwise])
    else
      .native condition.raw body (rest.map fun (e, code) => (e.raw, code)) otherwise

def indexName (head : Loop) : String :=
  match head.index with
  | none | some "" => "index"
  | some name => name

def keyText (head : Loop) : String :=
  match head.key with
  | none => s!"({head.item}, {indexName head}) => {indexName head}"
  | some key =>
    let parameter :=
      match head.keyParameter with
      | none | some "" => head.item
      | some name => name
    s!"({parameter}) => {key}"

/-- A container itself can be listed; anything else that reads containers is derived. -/
def loopItems (head : Loop) : Value :=
  let derived := Value.derived ⟨head.iterable, head.dependencies, "any[]"⟩
  match head.dependencies with
  | [container] =>
    if head.iterable = container || head.iterable = container ++ ".value" then .plain container
    else derived
  | _ => derived

def iteration (head : Loop) : Iteration :=
  if head.isReactive then .keyed (loopItems head) (keyText head) head.item (indexName head)
  else .native head.iterable head.item (indexName head)

def textCall (v : Value) : Code :=
  .call "Text" [.field "value" v] none

mutual

def lower : Node → Code
  | .text _ text => textCall (.plain (Json.literal text))
  | .expression _ e => textCall (value s!"String({e.raw})" e.dependencies .text)
  | .element _ tag children =>
    if tag.isComponent then
      .component tag.name (tag.props.map componentEntry)
    else if isLink tag then
      .link (linkConfig tag children)
    else
      let config :=
        textEntries children ++ tag.props.map elementEntry ++ handlerEntries tag.events
      let content :=
        if children.isEmpty || (textValue? children).isSome then none
        else some (lowerAll children)
      .call (methodName tag.name) config content
  | .conditional _ _ _ condition body elseIfs otherwise =>
    branch condition (lowerAll body) (lowerBranches elseIfs) (lowerOtherwise otherwise)
  | .loop _ head body => .loop (iteration head) head.prelude (lowerAll body)
  | .placeholder _ raw _ => textCall (.plain (Json.literal raw))

def lowerAll : List Node → List Code
  | [] => []
  | node :: nodes => lower node :: lowerAll nodes

def lowerBranches : List (Expression × List Node) → List (Expression × List Code)
  | [] => []
  | (condition, body) :: rest => (condition, lowerAll body) :: lowerBranches rest

def lowerOtherwise : Option (List Node) → Option (List Code)
  | none => none
  | some body => some (lowerAll body)

end

mutual

/-- The warnings about content that is lost: a component has no place for children. -/
def lost : Node → List Diagnostic
  | .element span tag children =>
    if tag.isComponent then
      if children.isEmpty then [] else [.of (.componentChildren tag.name) span]
    else if isLink tag then
      []
    else
      lostAll children
  | .conditional _ _ _ _ body elseIfs otherwise =>
    lostAll body ++ lostBranches elseIfs ++ lostOtherwise otherwise
  | .loop _ _ body => lostAll body
  | .text _ _ | .expression _ _ | .placeholder _ _ _ => []

def lostAll : List Node → List Diagnostic
  | [] => []
  | node :: nodes => lost node ++ lostAll nodes

def lostBranches : List (Expression × List Node) → List Diagnostic
  | [] => []
  | (_, body) :: rest => lostAll body ++ lostBranches rest

def lostOtherwise : Option (List Node) → List Diagnostic
  | none => []
  | some body => lostAll body

end

end Builder
end ComponentCompiler
