import ComponentCompiler.Page.Metadata
import ComponentCompiler.Text.Basic
import ComponentCompiler.Text.Letter

/-!
This module contains the directives in the leading comments of a file, such as `// @page /about` and
`// @title About us`. They are read from line comments up to the first line of code that is not
part of an import.
-/

namespace ComponentCompiler
namespace Page

/-- The characters that end a line of leading comments. A carriage return before a line feed gives
an empty line more, which says nothing. -/
def isLineBreak (c : Char) : Bool :=
  let n := c.toNat
  (10 ≤ n && n ≤ 13) || (28 ≤ n && n ≤ 30) || n == 0x85 || n == 0x2028 || n == 0x2029

def strip (cs : List Char) : List Char :=
  Text.dropBlankEnd (Text.dropBlank cs)

/-- Whether the end of a block comment is in a text. -/
def hasCommentEnd : List Char → Bool
  | '*' :: '/' :: _ => true
  | _ :: cs => hasCommentEnd cs
  | [] => false

def isQuote (c : Char) : Bool :=
  c == '\'' || c == '"'

/-- Whether a line of an import is its last: it ends with a quoted text and maybe a semicolon. -/
def endsImport (line : List Char) : Bool :=
  let unsemi :=
    match (Text.dropBlankEnd line).reverse with
    | ';' :: cs => cs
    | cs => cs
  match unsemi.dropWhile Text.isBlank with
  | c :: cs => isQuote c && cs.any isQuote
  | [] => false

def startsImport : List Char → Bool
  | 'i' :: 'm' :: 'p' :: 'o' :: 'r' :: 't' :: cs => !cs.head?.any Text.isWord
  | _ => false

def leadingComments (text : String) : List (List Char) :=
  go false false ((Text.splitOnP isLineBreak text.toList).map strip)
where
  go (inBlock inImport : Bool) : List (List Char) → List (List Char)
    | [] => []
    | line :: lines =>
      if inBlock then
        go (!hasCommentEnd line) inImport lines
      else
        match line with
        | [] => go false inImport lines
        | '/' :: '*' :: inner => go (!hasCommentEnd inner) inImport lines
        | '/' :: '/' :: _ => line :: go false inImport lines
        | line =>
          if inImport || startsImport line then go false (!endsImport line) lines
          else []

/-- What follows the last `@page` that ends a line or is followed by white space or a slash. -/
def afterPage? : List Char → Option (List Char)
  | [] => none
  | c :: cs =>
    match afterPage? cs with
    | some rest => some rest
    | none =>
      match c :: cs with
      | '@' :: 'p' :: 'a' :: 'g' :: 'e' :: rest =>
        if rest.head?.all fun c => c == '/' || Text.isBlank c then some rest else none
      | _ => none

def normalizeRoute (path : String) : String :=
  let path := Text.trim path
  if Text.startsWith path "/" then path else "/" ++ path

/-- Whether a character matches a small letter of a directive's name. Long s and the i with and
without dot count as letters too. -/
def matchesLetter (letter c : Char) : Bool :=
  c == letter || c.toNat + 32 == letter.toNat || (letter == 's' && c.toNat == 0x17f) ||
    (letter == 'i' && (c.toNat == 0x130 || c.toNat == 0x131))

/-- What follows a name in a text that starts with it. -/
def afterName? : List Char → List Char → Option (List Char)
  | [], cs => some cs
  | _ :: _, [] => none
  | letter :: name, c :: cs => if matchesLetter letter c then afterName? name cs else none

/-- The value of a directive in a line comment: what follows its name and white space. -/
def directive? (name : String) (comment : List Char) : Option String :=
  match Text.dropBlank (comment.drop 2) with
  | '@' :: cs =>
    match afterName? name.toList cs with
    | some (c :: rest) =>
      let value := strip rest
      if Text.isBlank c && !value.isEmpty then some (String.ofList value) else none
    | _ => none
  | _ => none

def Metadata.read (m : Metadata) (comment : List Char) : Metadata :=
  match afterPage? (comment.drop 2) with
  | some rest =>
    let path := strip (rest.dropWhile fun c => c == '/' || Text.isBlank c)
    if path.isEmpty then { m with isPage := true }
    else { m with isPage := true, routePath := some (normalizeRoute (String.ofList path)) }
  | none =>
    { m with
      title := directive? "title" comment <|> m.title
      description := directive? "description" comment <|> m.description
      guard := directive? "guard" comment <|> m.guard }

/-- What the directives of a file say; later ones win. -/
def Metadata.ofText (text : String) : Metadata :=
  (leadingComments text).foldl Metadata.read {}

end Page
end ComponentCompiler
