import ComponentCompiler.Json
import ComponentCompiler.Text.Basic

/-!
This module contains places in a file: the range of lines, columns and offsets that something was
read from, and how places in a piece of text become places in its file.
-/

namespace ComponentCompiler

structure Span where
  startLine : Nat
  startColumn : Nat
  endLine : Nat
  endColumn : Nat
  start : Nat := 0
  stop : Nat := 0
  file : Option String := none
  deriving DecidableEq, Repr, Inhabited

def Span.toJson (span : Span) : Json :=
  .obj
    [("s_line", .ofNat span.startLine), ("s_col", .ofNat span.startColumn),
      ("e_line", .ofNat span.endLine), ("e_col", .ofNat span.endColumn),
      ("s_pos", .ofNat span.start), ("e_pos", .ofNat span.stop), ("file_path", .text? span.file)]

/-- Where the first character of a piece of text stands in its file. -/
structure Origin where
  line : Nat := 1
  column : Nat := 1
  offset : Nat := 0
  deriving DecidableEq, Repr, Inhabited

/-- The line and column in the file of a line and column in the piece. Only the first line of the
piece can be moved to the side. -/
def Origin.locate (origin : Origin) (line column : Nat) : Nat × Nat :=
  (origin.line + line - 1, if line = 1 then origin.column + column - 1 else column)

def Origin.span (origin : Origin) (text : List Char) (start stop : Nat) (file : Option String) :
    Span :=
  let (line, column) := Text.lineCol text start
  let (startLine, startColumn) := origin.locate line column
  let (line, column) := Text.lineCol text stop
  let (endLine, endColumn) := origin.locate line column
  { startLine, startColumn, endLine, endColumn, start := origin.offset + start,
    stop := origin.offset + stop, file }

def Origin.spanAt (origin : Origin) (text : List Char) (pos : Nat) (file : Option String) : Span :=
  let (line, column) := Text.lineCol text pos
  let (line, column) := origin.locate line column
  { startLine := line, startColumn := column, endLine := line, endColumn := column + 1,
    start := origin.offset + pos, stop := origin.offset + pos + 1, file }

end ComponentCompiler
