import ComponentCompiler.Builder.Writer

/-!
This module contains calls of the layout builder and how they are written. `Code` is the language
that markup is compiled to: builder calls, native and reactive conditionals, native and reactive
loops.
-/

namespace ComponentCompiler
namespace Builder

/-- A value that is computed again whenever one of its dependencies changes. -/
structure Derived where
  expression : String
  dependencies : List String
  type : String
  deriving DecidableEq, Repr

def commas (items : List String) : String :=
  String.intercalate ", " items

def Derived.text (d : Derived) : String :=
  s!"watch([{commas d.dependencies}], () => {d.expression}) as Ref<{d.type}>"

inductive Value where
  | plain (text : String)
  | derived (value : Derived)
  deriving DecidableEq, Repr

def Value.text : Value → String
  | plain text => text
  | derived value => value.text

def Value.isDerived : Value → Bool
  | plain _ => false
  | derived _ => true

/-- An entry of the configuration object that a call is given. -/
inductive Entry where
  | field (name : String) (value : Value)
  | spread (value : String)
  | handlers (events : List (String × String))
  deriving DecidableEq, Repr

def handlerText (event : String × String) : String :=
  s!"{event.1}: {event.2}"

def Entry.text : Entry → String
  | field name value => s!"{name}: {value.text}"
  | spread value => s!"...{value}"
  | handlers events => s!"on: \x7b {commas (events.map handlerText)} \x7d"

def Entry.isDerived : Entry → Bool
  | field _ value => value.isDerived
  | _ => false

def configText (config : List Entry) : String :=
  if config.isEmpty then "\x7b\x7d"
  else s!"\x7b {commas (config.map Entry.text)} \x7d"

inductive Iteration where
  /-- `iterable.forEach((item, index) => ...)` -/
  | native (iterable item index : String)
  /-- `ui.List(...)`, which keeps an item's part of the page as long as its key stays. -/
  | keyed (items : Value) (key item index : String)
  deriving DecidableEq, Repr

inductive Code where
  /-- A call of a builder method, with a callback if there is content to build. -/
  | call (method : String) (config : List Entry) (content : Option (List Code))
  | component (name : String) (config : List Entry)
  | link (config : List Entry)
  /-- `if (...) ... else if (...) ... else ...` -/
  | native (condition : String) (body : List Code) (elseIfs : List (String × List Code))
      (otherwise : Option (List Code))
  /-- `ui.When(...)`, with `.Else(...)` if there is something for the other case. -/
  | reactive (guard : Derived) (body : List Code) (otherwise : Option (List Code))
  /-- The statements of the loop's callback before its markup are kept as they are. -/
  | loop (head : Iteration) (statements : Option String) (body : List Code)
  deriving Repr

namespace Code

def callback : String :=
  "(ui: LayoutBuilder) =>"

/-- A line that starts with one of these characters would continue the line before it. -/
def separated (iterable : String) : String :=
  if Text.startsWith iterable "[" || Text.startsWith iterable "(" then ";" ++ iterable else iterable

def statementLines : Option String → List String
  | none | some "" => []
  | some text => Writer.outdent text 1

mutual

def lines : Code → List String
  | .call method config none => [s!"ui.{method}({configText config})"]
  | .call method config (some content) =>
    s!"ui.{method}({configText config}, {callback} \x7b" ::
      (Writer.indentAll 1 (linesAll content) ++ ["\x7d)"])
  | .component name config => [s!"ui.append({name}({configText config}))"]
  | .link config => [s!"ui.append(Link({configText config}))"]
  | .native condition body elseIfs otherwise =>
    s!"if ({condition}) \x7b" ::
      (Writer.indentAll 1 (linesAll body) ++ elseIfLines elseIfs ++
        otherwiseLines "\x7d else \x7b" otherwise ++ ["\x7d"])
  | .reactive guard body otherwise =>
    s!"ui.When({guard.text}, {callback} \x7b" ::
      (Writer.indentAll 1 (linesAll body) ++
        otherwiseLines s!"\x7d).Else({callback} \x7b" otherwise ++ ["\x7d)"])
  | .loop (.native iterable item index) statements body =>
    s!"{separated iterable}.forEach(({item}, {index}) => \x7b" ::
      (Writer.indentAll 1 (statementLines statements ++ linesAll body) ++ ["\x7d)"])
  | .loop (.keyed items key item index) statements body =>
    "ui.List(\x7b" ::
      (Writer.indentAll 1
        (s!"items: {items.text}," :: s!"key: {key}," ::
          s!"render: ({item}, {index}, ui: LayoutBuilder) => \x7b" ::
            (Writer.indentAll 1 (statementLines statements ++ linesAll body) ++ ["\x7d,"])) ++
        ["\x7d)"])

def linesAll : List Code → List String
  | [] => []
  | code :: codes => lines code ++ linesAll codes

def elseIfLines : List (String × List Code) → List String
  | [] => []
  | (condition, body) :: rest =>
    s!"\x7d else if ({condition}) \x7b" ::
      (Writer.indentAll 1 (linesAll body) ++ elseIfLines rest)

def otherwiseLines (opener : String) : Option (List Code) → List String
  | none => []
  | some body => opener :: Writer.indentAll 1 (linesAll body)

end

mutual

/-- A piece of code and all pieces in it. -/
def parts : Code → List Code
  | .call method config content => .call method config content :: otherwiseParts content
  | .component name config => [.component name config]
  | .link config => [.link config]
  | .native condition body elseIfs otherwise =>
    .native condition body elseIfs otherwise ::
      (partsAll body ++ elseIfParts elseIfs ++ otherwiseParts otherwise)
  | .reactive guard body otherwise =>
    .reactive guard body otherwise :: (partsAll body ++ otherwiseParts otherwise)
  | .loop head statements body => .loop head statements body :: partsAll body

def partsAll : List Code → List Code
  | [] => []
  | code :: codes => parts code ++ partsAll codes

def elseIfParts : List (String × List Code) → List Code
  | [] => []
  | (_, body) :: rest => partsAll body ++ elseIfParts rest

def otherwiseParts : Option (List Code) → List Code
  | none => []
  | some body => partsAll body

end

def isDerived : Code → Bool
  | .call _ config _ | .component _ config | .link config => config.any Entry.isDerived
  | .reactive _ _ _ => true
  | .loop (.keyed items _ _ _) _ _ => items.isDerived
  | .native _ _ _ _ | .loop (.native _ _ _) _ _ => false

def isLink : Code → Bool
  | .link _ => true
  | _ => false

/-- The names of the runtime, sorted, that a piece of code uses besides the builder. -/
def runtimeNames (codes : List Code) : List String :=
  let parts := partsAll codes
  (if parts.any isLink then ["Link"] else []) ++
    (if parts.any isDerived then ["Ref", "watch"] else [])

end Code
end Builder
end ComponentCompiler
