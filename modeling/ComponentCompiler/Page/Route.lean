import ComponentCompiler.Page.Metadata
import ComponentCompiler.Text.Basic
import ComponentCompiler.Text.Letter

/-!
This module contains the routes of pages. A page without a path of its own gets one from its
component's name or its file's name.
-/

namespace ComponentCompiler
namespace Page

structure Route where
  path : String
  component : String
  title : Option String
  description : Option String
  guard : Option String
  sourceFile : Option String
  deriving DecidableEq, Repr

def Route.toJson (r : Route) : Json :=
  .obj
    [("path", .str r.path), ("component", .str r.component), ("title", .text? r.title),
      ("description", .text? r.description), ("guard", .text? r.guard),
      ("source_file", .text? r.sourceFile)]

/-- The name of a file without its directory and without all that follows the first point. -/
def fileStem (file : Option String) : String :=
  match file with
  | none | some "<stdin>" => ""
  | some path =>
    let name := (Text.splitOnP (· == '/') path.toList).getLast?.getD []
    String.ofList (name.takeWhile (· ≠ '.'))

def isAsciiUpper (c : Char) : Bool :=
  'A' ≤ c && c ≤ 'Z'

def isAsciiLower (c : Char) : Bool :=
  'a' ≤ c && c ≤ 'z'

def isSlugChar (c : Char) : Bool :=
  Text.isAsciiLetter c || Text.isAsciiDigit c

/-- A dash between a small letter or digit and a capital. -/
def breakWords : List Char → List Char
  | a :: b :: cs =>
    if (isAsciiLower a || Text.isAsciiDigit a) && isAsciiUpper b then
      a :: '-' :: breakWords (b :: cs)
    else
      a :: breakWords (b :: cs)
  | cs => cs

/-- A dash between two capitals the second of which starts a word. -/
def breakAcronyms : List Char → List Char
  | a :: b :: c :: cs =>
    if isAsciiUpper a && isAsciiUpper b && isAsciiLower c then
      a :: '-' :: breakAcronyms (b :: c :: cs)
    else
      a :: breakAcronyms (b :: c :: cs)
  | cs => cs

def kebabCase (name : String) : String :=
  let words := Text.splitOnP (!isSlugChar ·) (breakAcronyms (breakWords name.toList))
  let words := (words.filter (!·.isEmpty)).map fun word => String.ofList (word.map Char.toLower)
  String.intercalate "-" words

def homeNames : List String :=
  ["home", "index", "homepage", "indexpage"]

/-- The name is compared in ASCII: no other character has a small form among the letters of the
home names. -/
def isHome (name : String) : Bool :=
  homeNames.contains (String.ofList (name.toList.map Char.toLower))

def withoutSuffix (name : String) : String :=
  if Text.endsWith name "Page" && 4 < name.length then Text.slice name 0 (name.length - 4)
  else name

def defaultRoute (component : Option String) (file : Option String) : String :=
  let stem := fileStem file
  let name := component.getD ""
  if isHome name || isHome stem then
    "/"
  else
    "/" ++ kebabCase (withoutSuffix (if name = "" then stem else name))

/-- The route of a file that holds a page. -/
def Route.of? (m : Metadata) (component : String) (file : Option String) : Option Route :=
  if m.isPage then
    let path :=
      match m.routePath with
      | none | some "" => defaultRoute (some component) file
      | some path => path
    some ⟨path, component, m.title, m.description, m.guard, file⟩
  else
    none

end Page
end ComponentCompiler
