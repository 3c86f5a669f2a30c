import ComponentCompiler.Token.Group

/-!
This module contains the terminals of statements. A bracketed group and a markup tree each count as
one terminal, keywords count only at the head of a statement, and the end of a statement is a
terminal of its own.
-/

namespace ComponentCompiler

inductive Terminal where
  | arrow
  | asyncWord
  | brace
  | bracket
  | decl
  | defaultWord
  | eq
  | exportWord
  | functionWord
  | importWord
  | markup
  | name
  | number
  | op
  | paren
  | regex
  | returnWord
  | string
  | template
  | eos
  deriving DecidableEq, Repr

namespace Terminal

def all : List Terminal :=
  [arrow, asyncWord, brace, bracket, decl, defaultWord, eq, exportWord, functionWord, importWord,
    markup, name, number, op, paren, regex, returnWord, string, template, eos]

def label : Terminal → String
  | arrow => "ARROW"
  | asyncWord => "ASYNC"
  | brace => "BRACE"
  | bracket => "BRACKET"
  | decl => "DECL"
  | defaultWord => "DEFAULT"
  | eq => "EQ"
  | exportWord => "EXPORT"
  | functionWord => "FUNCTION"
  | importWord => "IMPORT"
  | markup => "MARKUP"
  | name => "NAME"
  | number => "NUMBER"
  | op => "OP"
  | paren => "PAREN"
  | regex => "REGEX"
  | returnWord => "RETURN"
  | string => "STRING"
  | template => "TEMPLATE"
  | eos => "_EOS"

def description : Terminal → String
  | arrow => "an arrow '=>'"
  | asyncWord => "the 'async' keyword"
  | brace => "a block '\x7b ... \x7d'"
  | bracket => "a bracketed group"
  | decl => "a declaration keyword"
  | defaultWord => "the 'default' keyword"
  | eq => "an equals sign '='"
  | exportWord => "the 'export' keyword"
  | functionWord => "the 'function' keyword"
  | importWord => "the 'import' keyword"
  | markup => "markup"
  | name => "a name"
  | op => "an operator"
  | paren => "a parenthesised group"
  | returnWord => "the 'return' keyword"
  | eos => "the end of the statement"
  | other => other.label

end Terminal

structure Lexeme where
  terminal : Terminal
  value : String
  start : Nat
  stop : Nat
  deriving DecidableEq, Repr

namespace Lexeme

/-- Operators that a statement does not end after at a line break. -/
def openEndings : List String :=
  [".", "?.", "?", ":", ",", "+", "-", "*", "/", "%", "**", "&&", "||", "??", "&", "|", "^", "<",
    ">", "<=", ">=", "==", "!=", "===", "!==", "<<", ">>", ">>>", "!", "~", "...", "@", "+=", "-=",
    "*=", "/=", "%=", "&&=", "||=", "??=", "&=", "|=", "^=", "**="]

/-- Operators that continue a statement after a line break. -/
def openStarts : List String :=
  [".", "?.", "?", ":", ",", "+", "-", "*", "/", "%", "**", "&&", "||", "??", "&", "|", "^", "<",
    ">", "<=", ">=", "==", "!=", "===", "!==", "<<", ">>", ">>>", "+=", "-=", "*=", "/=", "%=",
    "&&=", "||=", "??=", "=", "=>"]

def openEndingNames : List String :=
  ["new", "typeof", "await", "extends", "implements", "instanceof", "in", "of", "as", "satisfies",
    "void", "delete", "keyof", "from"]

def openStartNames : List String :=
  ["else", "catch", "finally", "as", "satisfies", "instanceof", "in", "of", "extends",
    "implements", "from"]

/-- Whether a statement that reads up to this lexeme needs more. -/
def isOpen (last : Lexeme) : Bool :=
  match last.terminal with
  | .importWord | .exportWord | .defaultWord | .asyncWord | .functionWord | .decl | .eq | .arrow =>
    true
  | .op => openEndings.contains last.value
  | .name => openEndingNames.contains last.value
  | _ => false

/-- Whether an item continues the statement of the line before. -/
def continues : Item → Bool
  | .token t =>
    match t.kind with
    | .punct => openStarts.contains t.value
    | .name => openStartNames.contains t.value
    | _ => false
  | .group .. => false

structure State where
  last : Option Lexeme := none
  /-- The running statement has only head keywords so far. -/
  atHead : Bool := true
  /-- The body of a function is still to come. -/
  awaitingBody : Bool := false
  /-- The parameters of that function have been read. -/
  seenParameters : Bool := false

def wordTerminal (state : State) (word : String) (next : Option Item) : Terminal :=
  let first := state.last.isNone
  let previous := state.last.map (·.terminal)
  let isAccess :=
    match next with
    | some (.group .paren _ _ _) => true
    | some (.token t) => t.value == "."
    | _ => false
  let beforeFunction :=
    match next with
    | some (.token t) => t.value == "function"
    | _ => false
  if !state.atHead then .name
  else if first && word == "import" && !isAccess then .importWord
  else if first && word == "export" then .exportWord
  else if first && word == "return" then .returnWord
  else if word == "default" && previous == some .exportWord then .defaultWord
  else if word == "async" && beforeFunction then .asyncWord
  else if word == "function" then .functionWord
  else if ["const", "let", "var"].contains word && previous != some .defaultWord then .decl
  else .name

def terminalOf (state : State) (item : Item) (next : Option Item) : Terminal :=
  match item with
  | .group .paren _ _ _ => .paren
  | .group .curly _ _ _ => .brace
  | .group .square _ _ _ => .bracket
  | .token t =>
    match t.kind with
    | .punct => if t.value = "=" then .eq else if t.value = "=>" then .arrow else .op
    | .name => wordTerminal state t.value next
    | .number => .number
    | .string => .string
    | .template => .template
    | .regex => .regex
    | .markup => .markup

def endOf (last : Lexeme) : Lexeme :=
  ⟨.eos, "", last.stop, last.stop⟩

def endIfOpen (state : State) : List Lexeme :=
  (state.last.map endOf).toList

/-- Reads one item that does not end the statement. The result holds the lexemes read and the
state after them. -/
def step (text : String) (state : State) (item : Item) (next : Option Item) :
    List Lexeme × State :=
  let terminal := terminalOf state item next
  let lexeme := ⟨terminal, Text.slice text item.start item.stop, item.start, item.stop⟩
  let atHead := state.atHead &&
    (terminal == .exportWord || terminal == .defaultWord || terminal == .asyncWord)
  let state := { state with last := some lexeme, atHead := atHead }
  if terminal = .functionWord then
    ([lexeme], { state with awaitingBody := true, seenParameters := false })
  else if state.awaitingBody && terminal == .paren then
    ([lexeme], { state with seenParameters := true })
  else if state.awaitingBody && state.seenParameters && terminal == .brace then
    -- A function declaration ends with its body.
    ([lexeme, endOf lexeme], {})
  else
    ([lexeme], state)

/-- The lexemes of grouped tokens. A statement ends at a semicolon, after the body of a function, at
a line break that neither side continues across, and at the end of the text. -/
def ofItems (text : String) (items : List Item) : List Lexeme :=
  go {} items
where
  go (state : State) : List Item → List Lexeme
    | [] => endIfOpen state
    | item :: items =>
      if item.isPunct ";" then
        endIfOpen state ++ go {} items
      else
        let breaks := item.newlineBefore && !state.awaitingBody && !continues item &&
          state.last.any (!·.isOpen)
        let ended := if breaks then endIfOpen state else []
        let state := if breaks then {} else state
        let (lexemes, state) := step text state item items.head?
        ended ++ lexemes ++ go state items

end Lexeme
end ComponentCompiler
