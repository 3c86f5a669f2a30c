import ComponentCompiler.Markup.Parse
import ComponentCompiler.Token.Scan

/-!
This module contains snippets: pieces of source text that know where they stand in the file, so that
what is found in them has its place there.
-/

namespace ComponentCompiler

structure Snippet where
  text : String
  origin : Origin := {}
  file : String := "<stdin>"
  deriving DecidableEq, Repr

namespace Snippet

def ofSpan (text : String) (span : Span) : Snippet :=
  let file :=
    match span.file with
    | none | some "" => "<stdin>"
    | some file => file
  ⟨text, ⟨span.startLine, span.startColumn, span.start⟩, file⟩

def sub (s : Snippet) (start stop : Nat) : Snippet :=
  let (line, column) := Text.lineCol s.text.toList start
  let (line, column) := s.origin.locate line column
  ⟨Text.slice s.text start stop, ⟨line, column, s.origin.offset + start⟩, s.file⟩

def strip (s : Snippet) : Snippet :=
  let start := s.text.length - (Text.trimStart s.text).length
  s.sub start (max start (Text.trimEnd s.text).length)

def span (s : Snippet) : Span :=
  s.origin.span s.text.toList 0 s.text.length (some s.file)

def items (s : Snippet) : Except ScanError (List Item) := do
  Token.group (← Token.scan s.text)

def between (s : Snippet) (first last : Item) : Snippet :=
  (s.sub first.start last.stop).strip

def covering (s : Snippet) (items : List Item) : Snippet :=
  match items.head?, items.getLast? with
  | some first, some last => s.between first last
  | _, _ => s.sub 0 0

/-- The snippet without white space and parentheses around the whole of it. -/
def stripParens (s : Snippet) : Except ScanError Snippet :=
  go (s.text.length + 1) s.strip
where
  /-- Each pass takes two characters off, so that as many passes as characters are enough. -/
  go : Nat → Snippet → Except ScanError Snippet
    | 0, s => .ok s
    | n + 1, s => do
      match ← s.items with
      | [.group .paren opener _ closer] => go n (s.sub opener.stop closer.start).strip
      | _ => return s

/-- Whether a branch renders nothing. -/
def isEmptyBranch (s : Snippet) : Except ScanError Bool := do
  return ["null", "undefined", "false", "''", "\"\""].contains (← s.stripParens).text

def containsMarkup (s : Snippet) : Except ScanError Bool := do
  return (← Token.scan s.text).any (·.kind == .markup)

def markup? (s : Snippet) : Except Failure (Option Markup.Node) := do
  let s ← s.stripParens.mapError .scan
  match ← (Token.scan s.text).mapError Failure.scan with
  | [token] =>
    if token.kind = .markup then return some (← Markup.Node.parse s.text s.file s.origin)
    else return none
  | _ => return none

end Snippet
end ComponentCompiler
