import ComponentCompiler.Builder.Code
import ComponentCompiler.Document.Basic
import ComponentCompiler.Text.Letter

/-!
This module contains the imports of a generated module. Named imports of the runtime are merged into
one line for values and one for types, together with the runtime names that generated code relies
on. Imports of the template helpers are dropped and all others are kept.
-/

namespace ComponentCompiler
namespace Output

def runtimeModule : String := "auwla"

def helperModule : String := "auwla/template"

def startsAfter : Option Char → Bool
  | none => true
  | some c => !(Text.isWord c || c == '$' || c == '.')

/-- Whether a call, or a call with type arguments, starts here. -/
def opensCall (cs : List Char) : Bool :=
  match Text.dropBlank cs with
  | '<' :: _ | '(' :: _ => true
  | _ => false

/-- Whether a function is called in a text that follows the given character. -/
def callsAfter (name : List Char) (before : Option Char) : List Char → Bool
  | [] => false
  | c :: cs =>
    (startsAfter before && name.isPrefixOf (c :: cs) && opensCall ((c :: cs).drop name.length)) ||
      callsAfter name (some c) cs

def calls (name text : String) : Bool :=
  callsAfter name.toList none text.toList

/-- Imported names: the merged values and types, and the declarations that stay as they are. -/
structure Imports where
  values : List String
  types : List String
  kept : List String
  deriving DecidableEq, Repr

namespace Imports

/-- What generated code needs; `source` is the user's code in the module. -/
def needed (runtime : List String) (source : String) : Imports where
  values :=
    "Component" :: (["ref", "watch"].filter fun name =>
      runtime.contains name || calls name source) ++
      ["Link"].filter runtime.contains
  types := "LayoutBuilder" :: ["Ref"].filter runtime.contains
  kept := []

def specifierText (s : Import.Specifier) : String :=
  if s.imported = s.localName then s.localName else s!"{s.imported} as {s.localName}"

def insertNew (name : String) (names : List String) : List String :=
  if names.contains name then names else names ++ [name]

def addSpecifier (i : Imports) (s : Import.Specifier) : Imports :=
  if s.isType then { i with types := insertNew (specifierText s) i.types }
  else { i with values := insertNew (specifierText s) i.values }

/-- Whether a declaration imports nothing but names of the runtime. -/
def isMerged (d : Import) : Bool :=
  d.module == runtimeModule && !d.specifiers.isEmpty &&
    d.specifiers.all fun s => s.imported != "default" && s.imported != "*"

def add (i : Imports) (d : Import) : Imports :=
  if d.module = helperModule then i
  else if isMerged d then d.specifiers.foldl addSpecifier i
  else { i with kept := i.kept ++ [d.source] }

def addAll (i : Imports) (declarations : List Import) : Imports :=
  declarations.foldl add i

def lines (i : Imports) : List String :=
  s!"import \x7b {Builder.commas i.values} \x7d from '{runtimeModule}'" ::
    s!"import type \x7b {Builder.commas i.types} \x7d from '{runtimeModule}'" :: i.kept

end Imports
end Output
end ComponentCompiler
