import ComponentCompiler.Problem
import ComponentCompiler.Text.Basic
import ComponentCompiler.Text.Letter

/-!
This module contains the tokens of source text and the ways in which reading them can fail.
-/

namespace ComponentCompiler

inductive Token.Kind where
  | name
  | number
  | string
  | template
  | regex
  | markup
  | punct
  deriving DecidableEq, Repr

def Token.Kind.label : Token.Kind → String
  | .name => "NAME"
  | .number => "NUMBER"
  | .string => "STRING"
  | .template => "TEMPLATE"
  | .regex => "REGEX"
  | .markup => "MARKUP"
  | .punct => "PUNCT"

structure Token where
  kind : Token.Kind
  value : String
  start : Nat
  stop : Nat
  /-- A line feed stands between this token and what was read before it. -/
  newlineBefore : Bool
  deriving DecidableEq, Repr

inductive Bracket where
  | paren
  | square
  | curly
  deriving DecidableEq, Repr

namespace Bracket

def opening : Bracket → Char
  | paren => '('
  | square => '['
  | curly => '\x7b'

def closing : Bracket → Char
  | paren => ')'
  | square => ']'
  | curly => '\x7d'

def all : List Bracket := [paren, square, curly]

def ofOpening? (c : Char) : Option Bracket :=
  all.find? (·.opening == c)

def ofClosing? (c : Char) : Option Bracket :=
  all.find? (·.closing == c)

@[simp]
theorem ofOpening?_opening (b : Bracket) : ofOpening? b.opening = some b := by
  cases b <;> decide

@[simp]
theorem ofClosing?_closing (b : Bracket) : ofClosing? b.closing = some b := by
  cases b <;> decide

end Bracket

namespace Token

def isPunct (t : Token) (value : String) : Bool :=
  t.kind == .punct && t.value == value

def isName (t : Token) (value : String) : Bool :=
  t.kind == .name && t.value == value

def opens? (t : Token) : Option Bracket :=
  if t.kind = .punct then Bracket.all.find? (·.opening.toString == t.value) else none

def closes? (t : Token) : Option Bracket :=
  if t.kind = .punct then Bracket.all.find? (·.closing.toString == t.value) else none

/-- Keywords after which an operand follows, so that `<` starts markup and `/` a regular
expression. -/
def operandKeywords : List String :=
  ["return", "yield", "await", "default", "case", "else", "do", "typeof", "void", "delete", "in",
    "of", "new", "throw"]

/-- Whether an operand, not an operator, is due after a token of this kind and text. -/
def operandAfter (kind : Kind) (value : String) : Bool :=
  match kind with
  | .punct => !([")", "]", "\x7d", "++", "--"].contains value)
  | .name => operandKeywords.contains value
  | _ => false

end Token

inductive ScanError where
  | problem (problem : Problem) (pos : Nat)
  /-- A character was asked for beyond the end of the text. -/
  | pastEnd
  /-- A bracket was asked for where there is another character. -/
  | notBracket (c : Char)
  deriving DecidableEq, Repr

end ComponentCompiler
