import ComponentCompiler.Document.Basic
import ComponentCompiler.Markup.Parse
import ComponentCompiler.Name.Free
import ComponentCompiler.Page.Directive
import ComponentCompiler.Path
import ComponentCompiler.Statement.Basic

/-!
This module contains the reading of component files. Each statement becomes an import, a component,
a code block or a module statement. A function or arrow function is a component if it returns
markup.
-/

namespace ComponentCompiler

structure Source where
  text : String
  file : String

namespace Source

def span (s : Source) (start stop : Nat) : Span :=
  Origin.span {} s.text.toList start stop (some s.file)

def slice (s : Source) (start stop : Nat) : String :=
  Text.slice s.text start stop

def items (s : Source) (start stop : Nat) : Except Failure (List Item) :=
  (Token.scanWindow s.text start stop >>= Token.group).mapError .scan

/-- The items inside the brackets that a lexeme consists of, with the brackets. -/
def groupOf (s : Source) (lexeme : Lexeme) : Except Failure Item := do
  match ← s.items lexeme.start lexeme.stop with
  | item :: _ => return item
  | [] => throw (.scan .pastEnd)

def markupAt (s : Source) (start stop : Nat) : Except Failure Markup.Node :=
  let (line, column) := Text.lineCol s.text.toList start
  Markup.Node.parse (s.slice start stop) s.file ⟨line, column, start⟩

/-- The text up to `stop` with every character before `start` blanked out, so that offsets, lines
and columns stay the same. -/
def blankBefore (s : Source) (start stop : Nat) : String :=
  let blank := (s.text.toList.take start).map fun c => if c = '\n' then c else ' '
  String.ofList blank ++ s.slice start stop

/-! ### Imports -/

def namedSpecifiers (s : Source) (typeOnly : Bool) (brace : Lexeme) :
    Except Failure (List Import.Specifier) := do
  match ← s.groupOf brace with
  | .group _ _ items _ => return (Item.split "," items).filterMap specifier?
  | .token _ => return []
where
  specifier? (part : List Item) : Option Import.Specifier :=
    match part.filterMap Item.name? with
    | [] => none
    | "type" :: name :: more => some (specifier true name more)
    | name :: more => some (specifier typeOnly name more)
  specifier (isType : Bool) (name : String) (more : List String) : Import.Specifier :=
    match more.reverse with
    | last :: "as" :: _ => ⟨name, last, isType⟩
    | _ => ⟨name, name, isType⟩

def specifiers (s : Source) (typeOnly : Bool) : List Lexeme → Except Failure (List Import.Specifier)
  | [] => .ok []
  | lexeme :: more =>
    match lexeme.terminal with
    | .name =>
      if lexeme.value = "from" then
        .ok []
      else do
        return ⟨"default", lexeme.value, typeOnly⟩ :: (← specifiers s typeOnly more)
    | .op =>
      if lexeme.value = "*" then
        match more with
        | _ :: name :: rest => do
          return ⟨"*", name.value, typeOnly⟩ :: (← specifiers s typeOnly rest)
        | more => specifiers s typeOnly more
      else
        specifiers s typeOnly more
    | .brace => do
      let named ← s.namedSpecifiers typeOnly lexeme
      return named ++ (← specifiers s typeOnly more)
    | _ => specifiers s typeOnly more

/-- Whether `type` stands before all that is imported. -/
def isTypeOnly : List Lexeme → Bool
  | first :: second :: _ => first.value == "type" && second.value != "from"
  | _ => false

def importOf (s : Source) (statement : Statement) (tokens : List Lexeme) :
    Except Failure Import := do
  let strings := tokens.filter (·.terminal == .string)
  let module := (strings.getLast?.map fun t => Text.slice t.value 1 (t.value.length - 1)).getD ""
  return {
    span := s.span statement.start statement.stop
    module
    specifiers := ← s.specifiers (isTypeOnly tokens)
      (if isTypeOnly tokens then tokens.drop 1 else tokens)
    typeOnly := isTypeOnly tokens
    source := s.slice statement.start statement.stop }

/-! ### Code blocks -/

/-- The name of a function, which may come after a star. -/
def functionName? (signature : List Lexeme) : Option String :=
  match signature.filter fun t => !(t.terminal == .op && t.value == "*") with
  | first :: _ => if first.terminal = .name then some first.value else none
  | [] => none

def bindingNames (s : Source) (binding : Lexeme) : Except Failure (List String) := do
  if binding.terminal = .name then
    return [binding.value]
  else
    return (← s.groupOf binding).declaredNames

/-- Whether an initial value is a call of one of the functions that make reactive containers. -/
def isReactiveCall : List Lexeme → Bool
  | callee :: next :: _ =>
    callee.terminal == .name && ["ref", "computed", "watch"].contains callee.value &&
      (next.terminal == .paren || next.value == "<")
  | _ => false

def block (s : Source) (origin : Block.Origin) (statement : Statement) : Except Failure Block := do
  let start :=
    match statement.body with
    | .passthrough _ | .defaultExpression _ => statement.start
    | _ => statement.codeStart
  let stop := statement.stop
  let (kind, declares, isReactive) ← (do
    match statement.body with
    | .function f => return (Block.Kind.function, (functionName? f.signature).toList, false)
    | .variable v =>
      return (.variable, ← s.bindingNames v.binding, isReactiveCall (v.initializer.getD []))
    | _ => return (.expression, [], false) : Except Failure _)
  let tokens ← (Token.scanWindow s.text start stop).mapError .scan
  return {
    span := s.span start stop
    kind
    source := s.slice start stop
    declares
    references := ← (Name.freeInWindow s.text start stop declares).mapError .scan
    origin
    isExported := statement.isExported && kind != .expression
    isReactive
    containsMarkup := tokens.any (·.kind == .markup) }

/-! ### Components -/

/-- The markup that an expression is: markup alone or in parentheses. -/
def markupOf? (s : Source) (tokens : List Lexeme) : Except Failure (Option Markup.Node) := do
  match tokens with
  | [lexeme] =>
    match lexeme.terminal with
    | .markup => return some (← s.markupAt lexeme.start lexeme.stop)
    | .paren =>
      let inner ← (Token.scanWindow s.text (lexeme.start + 1) (lexeme.stop - 1)).mapError .scan
      match inner.filter fun t => !(t.isPunct "(" || t.isPunct ")") with
      | [token] =>
        if token.kind = .markup then return some (← s.markupAt token.start token.stop)
        else return none
      | _ => return none
    | _ => return none
  | _ => return none

/-- The blocks of a function body up to its first return, and the markup returned there. -/
def body (s : Source) (brace : Lexeme) : Except Failure (List Block × Option Markup.Node) := do
  let start := brace.start + 1
  let stop := brace.stop - 1
  go [] (← Statement.parse (s.blankBefore start stop) s.file)
where
  go (blocks : List Block) : List Statement → Except Failure (List Block × Option Markup.Node)
    | [] => .ok (blocks.reverse, none)
    | statement :: statements =>
      match statement.body with
      | .returning _ tokens => return (blocks.reverse, ← s.markupOf? tokens)
      | _ => do go ((← s.block .componentBody statement) :: blocks) statements

def parameters (s : Source) (head : Lexeme) : Except Failure (List Parameter) := do
  if head.terminal = .name then
    return [⟨s.span head.start head.stop, head.value, [head.value]⟩]
  else
    match ← s.groupOf head with
    | .group bracket opener items closer =>
      return (Item.split "," items).filterMap fun part =>
        match part.head?, part.getLast? with
        | some first, some last =>
          some ⟨s.span first.start last.stop, s.slice first.start last.stop,
            (Item.group bracket opener part closer).boundNames⟩
        | _, _ => none
    | .token _ => return []

/-- The name of a component that is given none: the words of the file's name, each with a
capital. -/
def componentName (file : String) : String :=
  let name := (Text.splitOnP (· == '/') file.toList).getLast?.getD []
  let stem := (Path.stem (String.ofList name)).toList
  let words := (Text.splitOnP (!isPart ·) stem).map capitalize
  match words.flatten with
  | [] => "DefaultComponent"
  | c :: cs =>
    if Text.isAsciiLetter c && file != "<stdin>" then String.ofList (c :: cs)
    else "DefaultComponent"
where
  isPart (c : Char) : Bool :=
    Text.isAsciiLetter c || Text.isAsciiDigit c
  capitalize : List Char → List Char
    | [] => []
    | c :: cs => c.toUpper :: cs

def component (s : Source) (name : String) (statement : Statement) (parameters : List Parameter)
    (body : List Block) (markup : Markup.Node) : Component :=
  { span := s.span statement.start statement.stop
    name
    isDefault := statement.isDefault
    isExported := statement.isExported
    parameters
    body
    markup }

def componentOfFunction? (s : Source) (statement : Statement) (f : FunctionDef) :
    Except Failure (Option Component) := do
  let name? :=
    match functionName? f.signature with
    | some name => some name
    | none => if statement.isDefault then some (componentName s.file) else none
  match name? with
  | none => return none
  | some name =>
    match ← s.body f.body with
    | (_, none) => return none
    | (body, some markup) =>
      let parameters ←
        match f.signature.find? (·.terminal == .paren) with
        | some paren => s.parameters paren
        | none => pure []
      return some (s.component name statement parameters body markup)

def withoutAsync : List Lexeme → List Lexeme
  | first :: second :: more =>
    if first.terminal = .name ∧ first.value = "async" then second :: more
    else first :: second :: more
  | tokens => tokens

/-- The blocks and the markup of what stands after the arrow of an arrow function. -/
def arrowBody (s : Source) (result : List Lexeme) :
    Except Failure (List Block × Option Markup.Node) := do
  match result with
  | [brace] =>
    if brace.terminal = .brace then s.body brace
    else return ([], ← s.markupOf? [brace])
  | result => return ([], ← s.markupOf? result)

def componentOfExpression? (s : Source) (name : String) (statement : Statement)
    (tokens : List Lexeme) : Except Failure (Option Component) := do
  let tokens := withoutAsync tokens
  match tokens with
  | [] => return none
  | head :: more =>
    if head.terminal = .name ∧ head.value = "function" then
      match tokens.find? (·.terminal == .paren), tokens.getLast? with
      | some paren, some last =>
        if last.terminal = .brace then
          match ← s.body last with
          | (_, none) => return none
          | (body, some markup) =>
            return some (s.component name statement (← s.parameters paren) body markup)
        else
          return none
      | _, _ => return none
    else
      match more.dropWhile (·.terminal != .arrow) with
      | [] => return none
      | _ :: result =>
        if head.terminal = .paren ∨ head.terminal = .name then
          let parameters ← s.parameters head
          let (body, markup?) ← s.arrowBody result
          return markup?.map (s.component name statement parameters body)
        else
          return none

def component? (s : Source) (statement : Statement) : Except Failure (Option Component) :=
  match statement.body with
  | .function f => s.componentOfFunction? statement f
  | .variable v =>
    match v.binding.terminal, v.initializer with
    | .name, some tokens => s.componentOfExpression? v.binding.value statement tokens
    | _, _ => .ok none
  | _ => .ok none

/-! ### Documents -/

/-- What a file consists of so far, and the statements that name its default export. -/
structure Draft where
  imports : List Import := []
  blocks : List Block := []
  components : List Component := []
  moduleStatements : List Block := []
  defaultNames : List (String × Statement) := []

def add (s : Source) (draft : Draft) (statement : Statement) : Except Failure Draft := do
  match statement.body with
  | .importing tokens =>
    return { draft with imports := draft.imports ++ [← s.importOf statement tokens] }
  | .returning _ _ =>
    throw (.compile
      { problem := .returnOutsideFunction, span := some (s.span statement.start statement.stop) })
  | .passthrough _ => asModuleStatement
  | .defaultExpression tokens =>
    match tokens with
    | [lexeme] =>
      if lexeme.terminal = .name then
        return { draft with defaultNames := draft.defaultNames ++ [(lexeme.value, statement)] }
      else
        asModuleStatement
    | tokens =>
      match ← s.componentOfExpression? (componentName s.file) statement tokens with
      | some component => return { draft with components := draft.components ++ [component] }
      | none => asModuleStatement
  | _ =>
    match ← s.component? statement with
    | some component => return { draft with components := draft.components ++ [component] }
    | none => return { draft with blocks := draft.blocks ++ [← s.block .topLevel statement] }
where
  asModuleStatement : Except Failure Draft := do
    let block ← s.block .topLevel statement
    return { draft with moduleStatements := draft.moduleStatements ++ [block] }

/-- Makes the first component of the given name the default export, if there is one. -/
def promote (name : String) : List Component → Option (List Component)
  | [] => none
  | c :: cs =>
    if c.name = name then some ({ c with isDefault := true, isExported := true } :: cs)
    else (promote name cs).map (c :: ·)

/-- Exports a named default: a component of the file, or else something that is passed on. -/
def exportDefault (s : Source) (draft : Draft) (name : String) (statement : Statement) :
    Except Failure Draft := do
  match promote name draft.components with
  | some components => return { draft with components }
  | none =>
    let block ← s.block .topLevel statement
    return { draft with moduleStatements := draft.moduleStatements ++ [block] }

def firstLine (s : Source) (statement : Statement) : String :=
  String.ofList ((s.slice statement.start statement.stop).toList.takeWhile (· ≠ '\n'))

def checkDefaultExports (s : Source) (statements : List Statement) : Except Failure Unit :=
  match statements.filter (·.isDefault) with
  | first :: second :: _ =>
    .error (.compile
      { problem := .multipleDefaultExports (s.firstLine first) (s.firstLine second)
        span := some (s.span second.start second.stop) })
  | _ => .ok ()

/-- The document that a draft becomes. It has a component, and a page has a default one. -/
def finish (s : Source) (metadata : Page.Metadata) (draft : Draft) : Except Failure Document :=
  match draft.components with
  | [] => .error (.compile { problem := .noComponent, file := some s.file })
  | first :: more =>
    if metadata.isPage && !draft.components.any (·.isDefault) then
      let names := String.intercalate ", " (draft.components.map (·.name))
      .error (.compile { problem := .pageNotDefault names, span := some first.span })
    else
      .ok
        { file := s.file
          metadata
          imports := draft.imports
          blocks := draft.blocks
          components := first :: more
          components_ne_nil := List.cons_ne_nil _ _
          moduleStatements := draft.moduleStatements }

def document (s : Source) (metadata : Page.Metadata) (statements : List Statement) :
    Except Failure Document := do
  s.checkDefaultExports statements
  let draft ← statements.foldlM s.add {}
  let draft ← draft.defaultNames.foldlM (fun draft (name, statement) =>
    s.exportDefault draft name statement) draft
  s.finish metadata draft

end Source

def Document.parse (text : String) (file : String) : Except Failure Document := do
  let statements ← Statement.parse text file
  Source.document ⟨text, file⟩ (Page.Metadata.ofText text) statements

end ComponentCompiler
