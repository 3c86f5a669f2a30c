import ComponentCompiler.Text.Basic

/-!
This module contains the text of a generated module as it is written line by line. A line is
indented by two blanks for each level, and an empty line by none.
-/

namespace ComponentCompiler

structure Writer where
  lines : List String := []
  level : Int := 0
  deriving DecidableEq, Repr

namespace Writer

def indent (level : Nat) (line : String) : String :=
  if line = "" then "" else String.ofList (List.replicate (2 * level) ' ') ++ line

def indentAll (level : Nat) (lines : List String) : List String :=
  lines.map (indent level)

def margin (line : List Char) : Nat :=
  line.length - (Text.dropBlank line).length

/-- The indentation that the lines after the first have in common, if it is less than that of the
column where the text stood. -/
def commonMargin (column : Int) (rest : List (List Char)) : Int :=
  ((rest.filter (!·.all Text.isBlank)).map fun line => (margin line : Int)).foldl min (column - 1)

/-- The line without its first `n` characters, or with only as many at its end as a negative `n`
says. -/
def dropMargin (n : Int) (line : List Char) : List Char :=
  if n < 0 then line.drop (line.length - n.natAbs) else line.drop n.toNat

def shifted (n : Int) (line : List Char) : List Char :=
  if line.all Text.isBlank then [] else Text.dropBlankEnd (dropMargin n line)

/-- The lines of a text that stood at a column of its file, moved to the margin. The lines after the
first keep their indentation relative to each other. -/
def outdent (text : String) (column : Int) : List String :=
  match Text.splitOnP (· == '\n') text.toList with
  | [] => []
  | first :: rest =>
    String.ofList (Text.dropBlankEnd (Text.dropBlank first)) ::
      rest.map fun line => String.ofList (shifted (commonMargin column rest) line)

def writeAll (w : Writer) (lines : List String) : Writer :=
  { w with lines := w.lines ++ indentAll w.level.toNat lines }

def line (w : Writer) (text : String) : Writer :=
  w.writeAll [text]

/-- Ends a paragraph; an empty line is not written at the start or after another. -/
def blank (w : Writer) : Writer :=
  match w.lines.getLast? with
  | none | some "" => w
  | some _ => { w with lines := w.lines ++ [""] }

def source (w : Writer) (text : String) (column : Int) : Writer :=
  w.writeAll (outdent text column)

def indented (w : Writer) (body : Writer → Writer) : Writer :=
  { body { w with level := w.level + 1 } with level := w.level }

def text (lines : List String) : String :=
  Text.trimEnd (String.intercalate "\n" lines) ++ "\n"

def render (w : Writer) : String :=
  text w.lines

end Writer
end ComponentCompiler
