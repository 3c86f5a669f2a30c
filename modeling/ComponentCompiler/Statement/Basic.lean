import ComponentCompiler.Failure
import ComponentCompiler.Statement.Terminal
import ComponentCompiler.Token.Scan

/-!
This module contains statements and how they are read, one after the other, from the lexemes of a
text.
-/

namespace ComponentCompiler

structure FunctionDef where
  keyword : Lexeme
  signature : List Lexeme
  body : Lexeme
  deriving DecidableEq, Repr

def FunctionDef.isAsync (f : FunctionDef) : Bool :=
  f.keyword.terminal == .asyncWord

structure VariableDef where
  keyword : Lexeme
  binding : Lexeme
  typeItems : List Lexeme
  initializer : Option (List Lexeme)
  deriving DecidableEq, Repr

inductive Statement.Body where
  | importing (tokens : List Lexeme)
  | function (f : FunctionDef)
  | variable (v : VariableDef)
  | returning (keyword : Lexeme) (tokens : List Lexeme)
  | expression (tokens : List Lexeme)
  | defaultExpression (tokens : List Lexeme)
  | passthrough (tokens : List Lexeme)
  deriving DecidableEq, Repr

def Statement.Body.kind : Statement.Body → String
  | .importing _ => "import"
  | .function _ => "function"
  | .variable _ => "variable"
  | .returning _ _ => "return"
  | .expression _ => "expression"
  | .defaultExpression _ => "default_expression"
  | .passthrough _ => "passthrough"

/-- A statement of a file or function body. Its code starts after the export keywords, unless it is
passed through as it is. -/
structure Statement where
  body : Statement.Body
  start : Nat
  stop : Nat
  codeStart : Nat
  isExported : Bool := false
  isDefault : Bool := false
  deriving DecidableEq, Repr

namespace Statement

/-- A lexeme that does not continue any statement, and the terminals that would have. -/
structure Unexpected where
  found : Lexeme
  expected : List Terminal
  deriving DecidableEq, Repr

/-- Lists what was expected and shows what was found instead. -/
def expectation (expected : List String) (found : String) : String :=
  match expected.reverse with
  | [] => s!"Found unexpected token '{found}'."
  | [single] => s!"Expected {single}, but found '{found}' instead."
  | last :: others =>
    let list := String.intercalate ", " others.reverse
    s!"Expected one of: {list} or {last}, but found '{found}' instead."

def Unexpected.problem (u : Unexpected) : Problem :=
  .unexpectedToken (expectation (u.expected.map (·.description)) u.found.value)

def isExpressionItem : Terminal → Bool
  | .name | .paren | .brace | .bracket | .op | .string | .template | .number | .regex | .markup
  | .eq | .arrow => true
  | _ => false

def isSignatureItem : Terminal → Bool
  | .name | .paren | .bracket | .op | .string | .template | .number | .eq | .arrow => true
  | _ => false

def isTypeItem : Terminal → Bool
  | .name | .paren | .brace | .bracket | .op | .string | .template | .number | .arrow => true
  | _ => false

def isBinding : Terminal → Bool
  | .name | .brace | .bracket => true
  | _ => false

/-- The error for a lexeme, or the end of the statement, where `accepts` tells what would do. -/
def unexpected (eos : Lexeme) (found : List Lexeme) (accepts : Terminal → Bool) : Unexpected :=
  ⟨found.headD eos, Terminal.all.filter accepts⟩

/-- All the rest of a statement as items of an expression. -/
def expressionItems (eos : Lexeme) (tokens : List Lexeme) : Except Unexpected (List Lexeme) :=
  match tokens.dropWhile (isExpressionItem ·.terminal) with
  | [] => .ok tokens
  | rest => .error (unexpected eos rest fun t => isExpressionItem t || t == .eos)

/-- All the rest of a statement as one expression, which has at least one item. -/
def expression (eos : Lexeme) (tokens : List Lexeme) : Except Unexpected (List Lexeme) :=
  if isExpressionItem (tokens.headD eos).terminal then expressionItems eos tokens
  else .error (unexpected eos tokens isExpressionItem)

/-- A function from its first word on, up to the end of the statement. -/
def functionDef (eos keyword : Lexeme) (tokens : List Lexeme) : Except Unexpected FunctionDef :=
  let signature := tokens.takeWhile (isSignatureItem ·.terminal)
  match tokens.dropWhile (isSignatureItem ·.terminal) with
  | [] => .error (unexpected eos [] fun t => isSignatureItem t || t == .brace)
  | body :: rest =>
    if body.terminal = .brace then
      match rest with
      | [] => .ok ⟨keyword, signature, body⟩
      | rest => .error (unexpected eos rest (· == .eos))
    else
      .error (unexpected eos (body :: rest) fun t => isSignatureItem t || t == .brace)

/-- A function whose first word is `async`. -/
def asyncDef (eos keyword : Lexeme) (tokens : List Lexeme) : Except Unexpected FunctionDef :=
  match tokens with
  | [] => .error (unexpected eos [] (· == .functionWord))
  | word :: rest =>
    if word.terminal = .functionWord then functionDef eos keyword rest
    else .error (unexpected eos tokens (· == .functionWord))

/-- A declaration after its keyword, up to the end of the statement. -/
def variableDef (eos keyword : Lexeme) (tokens : List Lexeme) : Except Unexpected VariableDef :=
  match tokens with
  | [] => .error (unexpected eos [] isBinding)
  | binding :: rest =>
    if isBinding binding.terminal then
      let typeItems := rest.takeWhile (isTypeItem ·.terminal)
      match rest.dropWhile (isTypeItem ·.terminal) with
      | [] => .ok ⟨keyword, binding, typeItems, none⟩
      | eq :: value =>
        if eq.terminal = .eq then
          return ⟨keyword, binding, typeItems, some (← expression eos value)⟩
        else
          .error (unexpected eos (eq :: value) fun t => isTypeItem t || t == .eq || t == .eos)
    else
      .error (unexpected eos tokens isBinding)

def make (first : Lexeme) (eos : Lexeme) (codeStart : Lexeme) (body : Body)
    (isExported isDefault : Bool) : Statement :=
  { body, start := first.start, stop := eos.start, codeStart := codeStart.start, isExported,
    isDefault }

/-- What may follow `export`, with `extra` terminals besides those of an expression. -/
def acceptsAfterExport (extra : List Terminal) (t : Terminal) : Bool :=
  isExpressionItem t || extra.contains t

/-- Reads the statement that is made of all the given lexemes and ends at `eos`. -/
def ofLexemes (first : Lexeme) (rest : List Lexeme) (eos : Lexeme) :
    Except Unexpected Statement :=
  match first.terminal with
  | .importWord => do
    let tokens ← expression eos rest
    return make first eos (tokens.headD eos) (.importing tokens) false false
  | .exportWord => exported
  | .asyncWord => do
    let f ← asyncDef eos first rest
    return make first eos first (.function f) false false
  | .functionWord => do
    let f ← functionDef eos first rest
    return make first eos first (.function f) false false
  | .decl => do
    let v ← variableDef eos first rest
    return make first eos first (.variable v) false false
  | .returnWord => do
    let tokens ← expressionItems eos rest
    return make first eos (rest.headD first) (.returning first tokens) false false
  | _ => do
    let tokens ← expression eos (first :: rest)
    return make first eos first (.expression tokens) false false
where
  exported : Except Unexpected Statement :=
    match rest with
    | [] =>
      .error
        (unexpected eos [] (acceptsAfterExport [.defaultWord, .asyncWord, .functionWord, .decl]))
    | word :: more =>
      match word.terminal with
      | .defaultWord =>
        match more with
        | [] => .error (unexpected eos [] (acceptsAfterExport [.asyncWord, .functionWord]))
        | word :: rest =>
          match word.terminal with
          | .asyncWord => do
            let f ← asyncDef eos word rest
            return make first eos word (.function f) true true
          | .functionWord => do
            let f ← functionDef eos word rest
            return make first eos word (.function f) true true
          | terminal =>
            if isExpressionItem terminal then do
              let tokens ← expression eos more
              return make first eos word (.defaultExpression tokens) true true
            else
              .error (unexpected eos more (acceptsAfterExport [.asyncWord, .functionWord]))
      | .asyncWord => do
        let f ← asyncDef eos word more
        return make first eos word (.function f) true false
      | .functionWord => do
        let f ← functionDef eos word more
        return make first eos word (.function f) true false
      | .decl => do
        let v ← variableDef eos word more
        return make first eos word (.variable v) true false
      | terminal =>
        if isExpressionItem terminal then do
          let tokens ← expression eos rest
          return make first eos first (.passthrough tokens) true false
        else
          .error (unexpected eos rest
            (acceptsAfterExport [.defaultWord, .asyncWord, .functionWord, .decl]))

/-- Cuts lexemes into statements, each with the lexeme that ends it. What follows the last end is
no statement. -/
def segments (lexemes : List Lexeme) : List (List Lexeme × Lexeme) :=
  go [] lexemes
where
  go (taken : List Lexeme) : List Lexeme → List (List Lexeme × Lexeme)
    | [] => []
    | lexeme :: rest =>
      if lexeme.terminal = .eos then (taken.reverse, lexeme) :: go [] rest
      else go (lexeme :: taken) rest

def ofSegment : List Lexeme × Lexeme → Except Unexpected Statement
  | ([], eos) => .error (unexpected eos [] fun t => t != .eos && t != .defaultWord)
  | (first :: rest, eos) => ofLexemes first rest eos

/-- The statements of a text, or what is wrong with it and where. -/
def parse (text : String) (file : String) : Except Failure (List Statement) := do
  let items ← (Token.scan text >>= Token.group).mapError (Failure.ofScan · text {} file)
  (segments (Lexeme.ofItems text items)).mapM fun segment =>
    (ofSegment segment).mapError fun u =>
      .compile (.at u.problem text u.found.start {} file)

end Statement
end ComponentCompiler
