import ComponentCompiler.Text.Basic

/-!
This module contains file paths as text: their parts, their normal form, and what is left of them
without the extension.
-/

namespace ComponentCompiler
namespace Path

def parts (path : String) : List String :=
  (Text.splitOnP (· == '/') path.toList).map String.ofList

def isAbsolute (path : String) : Bool :=
  Text.startsWith path "/"

/-- The slashes that a path starts with: two are kept, more than two count as one. -/
def root (path : String) : String :=
  if Text.startsWith path "//" && !Text.startsWith path "///" then "//"
  else if isAbsolute path then "/"
  else ""

/-- Adds a part to parts in normal form, the last part first. Above the root is the root. -/
def push (absolute : Bool) (normal : List String) (part : String) : List String :=
  if part = "" || part = "." then
    normal
  else if part = ".." then
    match normal with
    | [] => if absolute then [] else [".."]
    | last :: rest => if last = ".." then ".." :: normal else rest
  else
    part :: normal

/-- The parts of a path without `.` and with `..` only at its start. -/
def normalParts (path : String) : List String :=
  ((parts path).foldl (push (isAbsolute path)) []).reverse

def normalize (path : String) : String :=
  let text := root path ++ String.intercalate "/" (normalParts path)
  if text = "" then "." else text

def absolute (directory path : String) : String :=
  if isAbsolute path then normalize path
  else if Text.endsWith directory "/" then normalize (directory ++ path)
  else normalize (directory ++ "/" ++ path)

/-- The system takes no path with the character U+0000. -/
def hasNull (path : String) : Bool :=
  path.toList.contains '\x00'

def nullMessage : String :=
  "embedded null byte"

/-- What precedes the extension. Points at the start of a file's name do not start one. -/
def stem (path : String) : String :=
  let name := (Text.splitOnP (· == '/') path.toList).getLast?.getD []
  let dots := (name.takeWhile (· == '.')).length
  match (Text.splitOnP (· == '.') (name.drop dots)).getLast? with
  | some extension =>
    if extension.length = name.length - dots then path
    else Text.slice path 0 (path.length - (extension.length + 1))
  | none => path

end Path
end ComponentCompiler
