import ComponentCompiler.Document.Basic
import ComponentCompiler.Snippet.Form
import ComponentCompiler.Text.Case
import ComponentCompiler.View.Node

/-!
This module contains the analysis of markup: which reactive containers expressions read, and which
slots are conditionals and loops. Problems that can be worked around are reported and leave a
placeholder.
-/

namespace ComponentCompiler
namespace View

/-- What is known where an expression stands: the reactive containers, and the names that enclosing
loops bind. -/
structure Context where
  reactive : List String
  bound : List String := []

/-- A step that may fail. The reports that were made before it failed are kept. -/
abbrev Analysis := ExceptT Failure (StateM (List Diagnostic))

abbrev SlotAnalysis := Context → Snippet → Analysis (List Node)

namespace Analysis

def lift (result : Except ScanError α) : Analysis α :=
  match result with
  | .ok value => pure value
  | .error e => throw (.scan e)

def report (problem : Problem) (span : Span) : Analysis Unit :=
  modify (· ++ [Diagnostic.of problem span none])

/-- Runs `handler` if the text of a snippet can not be read. -/
def orUnreadable (action handler : Analysis α) : Analysis α :=
  tryCatch action fun
    | .scan (.problem _ _) => handler
    | failure => throw failure

end Analysis

open Analysis

def placeholder (problem : Problem) (s : Snippet) : Analysis Node := do
  report problem s.span
  return .placeholder s.span s.text problem.message

def expression (ctx : Context) (s : Snippet) (role : Role) : Analysis Expression := do
  return ⟨s.text, ← lift (s.dependencies ctx.reactive ctx.bound), role⟩

/-- Analyses what a condition guards: markup, or an arrow function without parameters that returns
it. -/
def branch (slot : SlotAnalysis) (ctx : Context) (s : Snippet) : Analysis (List Node) := do
  if ← lift s.isEmptyBranch then
    return []
  match ← lift (do (← s.stripParens).arrow?) with
  | some arrow => slot ctx (if arrow.parameters.isEmpty then arrow.body else s)
  | none => slot ctx s

/-! ### Conditionals -/

def conditional (slot : SlotAnalysis) (ctx : Context) (span : Span) (idiom : Conditional.Idiom)
    (first : Snippet × Snippet) (more : List (Snippet × Snippet)) (otherwise : Option Snippet) :
    Analysis Node := do
  let condition ← expression ctx first.1 .condition
  let conditions ← more.mapM fun part => expression ctx part.1 .condition
  let body ← branch slot ctx first.2
  let bodies ← more.mapM fun part => branch slot ctx part.2
  let alternative ←
    match otherwise with
    | none => pure none
    | some s =>
      if ← lift s.isEmptyBranch then pure none
      else do pure (some (← branch slot ctx s))
  let isStatic := !(condition :: conditions).any (·.isReactive)
  return .conditional span idiom isStatic condition body (conditions.zip bodies) alternative

def anyMarkup : List Snippet → Except ScanError Bool
  | [] => .ok false
  | s :: more => do
    if ← s.containsMarkup then return true else anyMarkup more

/-- A ternary with those that its last part is made of. -/
def ternaryTail (s : Snippet) : Except ScanError (List (Snippet × Snippet) × Snippet) :=
  go (s.text.length + 1) s
where
  /-- Each last part is shorter than the ternary it is taken from. -/
  go : Nat → Snippet → Except ScanError (List (Snippet × Snippet) × Snippet)
    | 0, s => .ok ([], s)
    | n + 1, s => do
      match ← (← s.stripParens).splitTernary? with
      | none => return ([], s)
      | some (condition, value, rest) =>
        let (more, last) ← go n rest
        return ((condition, value) :: more, last)

/-- The branches and the alternative of a ternary that has markup in one of them. -/
def ternary? (s : Snippet) :
    Except ScanError (Option ((Snippet × Snippet) × List (Snippet × Snippet) × Snippet)) := do
  match ← s.splitTernary? with
  | none => return none
  | some (condition, value, rest) =>
    let (more, otherwise) ← ternaryTail rest
    if ← anyMarkup (value :: more.map (·.2) ++ [otherwise]) then
      return some ((condition, value), more, otherwise)
    else
      return none

def logicalAnd? (s : Snippet) : Except ScanError (Option (Snippet × Snippet)) := do
  match ← s.splitAnd? with
  | none => return none
  | some (condition, value) =>
    if ← value.containsMarkup then return some (condition, value) else return none

/-- The condition and the body that a helper call contributes to its chain. -/
def guarded? (call : Snippet.Call) : Option (Snippet × Snippet) :=
  match call.callee, call.arguments with
  | "$else", _ => none
  | _, condition :: body :: _ => some (condition, body)
  | _, _ => none

def alternative? (call : Snippet.Call) : Option Snippet :=
  match call.callee with
  | "$if" => call.arguments[2]?
  | "$else" => call.arguments.head?
  | _ => none

/-- The conditional that a chain of helper calls makes up. -/
def chain (slot : SlotAnalysis) (ctx : Context) (span : Span) (calls : List Snippet.Call) :
    Analysis (List Node) :=
  match calls.filterMap guarded? with
  | [] => return []
  | first :: more => do
    let otherwise := (calls.filterMap alternative?).getLast?
    return [← conditional slot ctx span .explicitChain first more otherwise]

/-! ### Loops -/

def keyOf : List Node → Option String
  | [] => none
  | .element _ tag _ :: _ => tag.key
  | _ :: nodes => keyOf nodes

def loop (slot : SlotAnalysis) (ctx : Context) (span : Span) (idiom : Loop.Idiom)
    (iterable : Snippet) (callback : Snippet.Arrow) (keyCallback : Option Snippet.Arrow)
    (dependencies : List String) : Analysis Node := do
  let body ← slot { ctx with bound := ctx.bound ++ callback.names } callback.body
  let key :=
    match keyCallback with
    | some arrow => some arrow.body.text
    | none => keyOf body
  let isReactive := !dependencies.isEmpty
  if isReactive && key.isNone then
    report (.missingKey iterable.text) span
  let prelude := (callback.prelude.map (·.text)).filter (· ≠ "")
  return .loop span
    { idiom, iterable := iterable.text, isReactive, dependencies
      item := callback.parameters.headD "item"
      index := callback.parameters[1]?
      key
      keyParameter := keyCallback.bind (·.parameters.head?)
      prelude }
    body

def each (slot : SlotAnalysis) (ctx : Context) (span : Span) (call : Snippet.Call) :
    Analysis Node := do
  let malformed (details : String) : Analysis Node :=
    placeholder (.malformedHelper "$each" details) call.snippet
  let run (iterable render : Snippet) (key : Option Snippet) : Analysis Node := do
    let callback ← lift render.arrow?
    let keyCallback ← lift (key.mapM Snippet.arrow?)
    match callback, keyCallback with
    | some callback, none => finish iterable callback none
    | some callback, some (some keyCallback) => finish iterable callback (some keyCallback)
    | _, _ => malformed "the render and key arguments must be arrow functions"
  match call.arguments with
  | [iterable, render] => run iterable render none
  | [iterable, render, key] => run iterable render (some key)
  | arguments => malformed s!"expected 2 or 3 arguments, got {arguments.length}"
where
  finish (iterable : Snippet) (callback : Snippet.Arrow) (keyCallback : Option Snippet.Arrow) :
      Analysis Node := do
    let dependencies ← lift (iterable.dependencies ctx.reactive ctx.bound)
    if dependencies.isEmpty then
      report (.nonReactiveEach iterable.text) span
    loop slot ctx span .eachHelper iterable callback keyCallback dependencies

def loop? (slot : SlotAnalysis) (ctx : Context) (s : Snippet) : Analysis (Option Node) := do
  let call ← lift s.call?
  match call.filter (·.callee == "$each") with
  | some call => return some (← each slot ctx s.span call)
  | none =>
    match ← lift s.mapCall? with
    | none => return none
    | some (iterable, callback) =>
      match ← lift callback.arrow? with
      | none => return none
      | some arrow =>
        if ← lift arrow.body.containsMarkup then
          let dependencies ← lift (iterable.dependencies ctx.reactive ctx.bound)
          let idiom := if dependencies.isEmpty then Loop.Idiom.staticMap else .reactiveMap
          return some (← loop slot ctx s.span idiom iterable arrow none dependencies)
        else
          return none

/-! ### Elements -/

def isEvent (name : String) : Bool :=
  match name.toList with
  | 'o' :: 'n' :: c :: _ => Text.isUpper c
  | _ => false

def eventName (name : String) : String :=
  String.ofList (Text.toLower (name.toList.drop 2))

def startsUpper (tag : String) : Bool :=
  tag.toList.head?.any Text.isUpper

def propName (isComponent : Bool) (name : String) : String :=
  if isComponent then name
  else if name = "class" then "className"
  else if name = "for" then "htmlFor"
  else name

/-- Adds an attribute to a tag: its key, an event or a property. -/
def addAttribute (ctx : Context) (tag : Tag) (attr : Markup.Attribute) : Analysis Tag := do
  match attr with
  | .spread _ value =>
    return { tag with props := tag.props ++ [{ name := none, kind := .spread, value }] }
  | .string _ name value =>
    if name = "key" then
      return { tag with key := some (Json.literal value) }
    else
      return addProp name { name := none, kind := .string, value := Json.literal value }
  | .boolean _ name =>
    if name = "key" then
      return { tag with key := some (Json.literal "") }
    else
      return addProp name { name := none, kind := .boolean, value := "true" }
  | .expression span name value =>
    if name = "key" then
      return { tag with key := some (Text.trim value) }
    else if !tag.isComponent && isEvent name then
      return { tag with events := tag.events ++ [⟨eventName name, Text.trim value⟩] }
    else
      let e ← expression ctx (Snippet.ofSpan value span).strip .attribute
      return addProp name
        { name := none, kind := .expression, value := e.raw, isReactive := e.isReactive
          dependencies := e.dependencies }
where
  addProp (name : String) (prop : Property) : Tag :=
    { tag with props := tag.props ++ [{ prop with name := some (propName tag.isComponent name) }] }

/-! ### Trees -/

/-- Helper calls that make up a chain so far, whether it can not go on, and the white space after
it, which is kept only if the chain does not go on. -/
structure Chain where
  calls : List Snippet.Call := []
  isClosed : Bool := false
  pending : List Node := []

def chainSpan (first last : Snippet.Call) : Span :=
  let stop := last.snippet.span
  { first.snippet.span with
    endLine := stop.endLine, endColumn := stop.endColumn, stop := stop.stop }

def flush (slot : SlotAnalysis) (ctx : Context) (c : Chain) : Analysis (List Node) := do
  match c.calls.head?, c.calls.getLast? with
  | some first, some last =>
    return (← chain slot ctx (chainSpan first last) c.calls) ++ c.pending
  | _, _ => return c.pending

/-- What a helper call does to the chain before it: the nodes that are complete, and the chain that
goes on. -/
def chainStep (slot : SlotAnalysis) (ctx : Context) (c : Chain) (s : Snippet)
    (call : Snippet.Call) : Analysis (List Node × Chain) := do
  if !call.hasArity then
    let before ← flush slot ctx c
    let details := s!"unexpected number of arguments ({call.arguments.length})"
    return (before ++ [← placeholder (.malformedHelper call.callee details) s], {})
  else if call.callee = "$if" then
    let before ← flush slot ctx c
    return (before, { calls := [call], isClosed := call.arguments.length == 3 })
  else if c.calls.isEmpty || c.isClosed then
    let before ← flush slot ctx c
    return (before ++ [← placeholder (.orphanConditional call.callee) s], {})
  else
    return ([], { calls := c.calls ++ [call], isClosed := call.callee == "$else" })

mutual

def node (slot : SlotAnalysis) (ctx : Context) : Markup.Node → Analysis (List Node)
  | .element span name attributes nodes => do
    let tag ← attributes.foldlM (addAttribute ctx) { name, isComponent := startsUpper name }
    return [.element span tag (← children slot ctx {} nodes)]
  | .fragment _ nodes => children slot ctx {} nodes
  | .text span value => return [.text span value]
  | .slot span source => slot ctx (.ofSpan source span)

/-- Analyses siblings that follow a chain of helper calls. White space does not end the chain, any
other sibling that is no part of it does. -/
def children (slot : SlotAnalysis) (ctx : Context) (c : Chain) :
    List Markup.Node → Analysis (List Node)
  | [] => flush slot ctx c
  | sibling :: siblings => do
    match sibling with
    | .text span value =>
      if !c.calls.isEmpty && Text.allBlank value then
        children slot ctx { c with pending := c.pending ++ [.text span value] } siblings
      else
        let before ← flush slot ctx c
        return before ++ .text span value :: (← children slot ctx {} siblings)
    | .slot span source =>
      let s := Snippet.ofSpan source span
      match ← lift s.chainCall? with
      | some call =>
        let (before, c) ← chainStep slot ctx c s call
        return before ++ (← children slot ctx c siblings)
      | none =>
        let before ← flush slot ctx c
        let nodes ← slot ctx s
        return before ++ nodes ++ (← children slot ctx {} siblings)
    | .element span name attributes nodes =>
      let before ← flush slot ctx c
      let nodes ← node slot ctx (.element span name attributes nodes)
      return before ++ nodes ++ (← children slot ctx {} siblings)
    | .fragment span nodes =>
      let before ← flush slot ctx c
      let nodes ← node slot ctx (.fragment span nodes)
      return before ++ nodes ++ (← children slot ctx {} siblings)

end

/-- What a slot stands for, if it is anything but a text: markup, a conditional, a loop, or
something that can not be compiled. -/
def slotForm? (slot : SlotAnalysis) (ctx : Context) (s : Snippet) :
    Analysis (Option (List Node)) := do
  if let some tree ← (s.markup? : Except Failure _) then
    return some (← node slot ctx tree)
  if let some (first, more, otherwise) ← lift (ternary? s) then
    return some [← conditional slot ctx s.span .ternary first more (some otherwise)]
  if let some (condition, value) ← lift (logicalAnd? s) then
    return some [← conditional slot ctx s.span .logicalAnd (condition, value) [] none]
  if let some loop ← loop? slot ctx s then
    return some [loop]
  if let some call ← lift s.chainCall? then
    if call.callee = "$if" && call.hasArity then
      return some (← chain slot ctx s.span [call])
    else
      return some [← placeholder (.orphanConditional call.callee) s]
  if ← lift s.containsMarkup then
    return some [← placeholder (.unsupportedExpression s.text) s]
  return none

/-- Analyses a slot, given how to analyse the slots inside of it. -/
def slotPass (slot : SlotAnalysis) : SlotAnalysis := fun ctx s => do
  let s ← lift s.stripParens
  if s.text = "" then
    return []
  let form? ← orUnreadable (slotForm? slot ctx s)
    (do return some [← placeholder (.unsupportedExpression s.text) s])
  match form? with
  | some nodes => return nodes
  | none => return [.expression s.span (← expression ctx s .text)]

/-- The argument bounds how deep slots nest; each nested one is shorter. -/
def slot : Nat → SlotAnalysis
  | 0 => fun _ _ => return []
  | n + 1 => slotPass (slot n)

mutual

def longestSlot : Markup.Node → Nat
  | .slot _ source => source.length
  | .text _ _ => 0
  | .fragment _ nodes => longestSlotOf nodes
  | .element _ _ _ nodes => longestSlotOf nodes

def longestSlotOf : List Markup.Node → Nat
  | [] => 0
  | node :: nodes => max (longestSlot node) (longestSlotOf nodes)

end

def reactiveNames (blocks : List Block) : List String :=
  distinct ((blocks.filter (·.isReactive)).flatMap (·.declares))

def sorted (names : List String) : List String :=
  (distinct names).mergeSort fun a b => decide (a ≤ b)

/-- Analyses the markup of a component with the given reactive containers. -/
def analyse (component : ComponentCompiler.Component) (reactive : List String) :
    Except Failure Component :=
  let tree := component.markup
  match (node (slot (longestSlot tree + 1)) { reactive } tree).run [] with
  | (.ok root, diagnostics) => .ok ⟨component.name, root, sorted reactive, diagnostics⟩
  | (.error failure, _) => .error failure

/-- Sets the value of a name; a name that is there keeps its place. -/
def put (name : String) (value : α) : List (String × α) → List (String × α)
  | [] => [(name, value)]
  | (key, old) :: more =>
    if key = name then (key, value) :: more else (key, old) :: put name value more

/-- Views under their names. Of views of the same name the last is kept. -/
def byName (views : List Component) : List (String × Component) :=
  views.foldl (fun named view => put view.name view named) []

/-- Analyses components, each with the given containers and those of its own body, up to the first
that fails. -/
def analyseEach (shared : List String) :
    List ComponentCompiler.Component → List Component × Option Failure
  | [] => ([], none)
  | component :: components =>
    match analyse component (shared ++ reactiveNames component.body) with
    | .error failure => ([], some failure)
    | .ok view =>
      let (views, failure) := analyseEach shared components
      (view :: views, failure)

/-- Analyses the components of a document with the containers that are declared outside them. -/
def analyseAll (document : Document) : List Component × Option Failure :=
  analyseEach (reactiveNames document.blocks) document.components

end View
end ComponentCompiler
