import ComponentCompiler.Token.Literal

/-!
This module contains what stands between tokens: white space, line comments and block comments.
-/

namespace ComponentCompiler

/-- A problem met while reading on, with the number of characters from its place to the end of the
text. -/
structure Fault where
  problem : Problem
  left : Nat
  deriving DecidableEq, Repr

/-- The error for a fault met while reading on from offset `pos` with `length` characters left. -/
def Fault.toError (f : Fault) (pos length : Nat) : ScanError :=
  .problem f.problem (pos + (length - f.left))

namespace Token

/-- What is being passed over: blanks, a slash that may open a comment, a line comment or a block
comment. A block comment knows how many characters were left at its start, and whether the character
before was a star. -/
inductive Gap where
  | blank
  | slash
  | line
  | block (left : Nat) (star : Bool)

/-- Passes over white space and comments. Returns whether a line feed was among them, or was before,
and the text from the next token on. -/
def afterGap (newline : Bool) (cs : List Char) : Except Fault (Bool × List Char) :=
  go .blank newline cs
where
  go : Gap → Bool → List Char → Except Fault (Bool × List Char)
    | .blank, newline, [] | .line, newline, [] => .ok (newline, [])
    | .slash, newline, [] => .ok (newline, ['/'])
    | .block left _, _, [] => .error ⟨.unclosedComment, left⟩
    | .blank, newline, c :: cs =>
      if Text.isBlank c then go .blank (newline || c == '\n') cs
      else if c = '/' then go .slash newline cs
      else .ok (newline, c :: cs)
    | .slash, newline, c :: cs =>
      if c = '/' then go .line newline cs
      else if c = '*' then go (.block (cs.length + 2) false) newline cs
      else .ok (newline, '/' :: c :: cs)
    | .line, newline, c :: cs =>
      if c = '\n' then go .blank true cs else go .line newline cs
    | .block left star, newline, c :: cs =>
      if star && c == '/' then
        go .blank newline cs
      else
        go (.block left (c == '*')) (newline || c == '\n') cs

end Token
end ComponentCompiler
