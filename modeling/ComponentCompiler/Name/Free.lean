import ComponentCompiler.Name.Pattern
import ComponentCompiler.Token.Scan

/-!
This module contains the names that a piece of code reads without binding them itself. A name that
is bound anywhere in the piece counts as bound in all of it.
-/

namespace ComponentCompiler
namespace Name

def keywords : List String :=
  ["break", "case", "catch", "class", "const", "continue", "debugger", "default", "delete", "do",
    "else", "export", "extends", "finally", "for", "function", "if", "import", "in", "instanceof",
    "new", "return", "super", "switch", "this", "throw", "try", "typeof", "var", "void", "while",
    "with", "yield", "let", "static", "enum", "await", "implements", "package", "protected",
    "interface", "private", "public", "async", "of", "as", "type", "from", "get", "set", "null",
    "true", "false", "undefined", "NaN", "Infinity", "readonly", "declare", "namespace", "keyof",
    "infer", "is", "satisfies", "abstract", "arguments"]

def typeNames : List String :=
  ["number", "string", "boolean", "any", "unknown", "never", "object", "symbol", "bigint"]

def globals : List String :=
  ["console", "window", "document", "globalThis", "navigator", "location", "history",
    "localStorage", "sessionStorage", "setTimeout", "setInterval", "clearTimeout", "clearInterval",
    "requestAnimationFrame", "cancelAnimationFrame", "queueMicrotask", "fetch", "alert", "confirm",
    "prompt", "parseInt", "parseFloat", "isNaN", "isFinite", "encodeURIComponent",
    "decodeURIComponent", "structuredClone", "require", "module", "exports", "process", "ref",
    "watch", "computed", "onMount", "onUnmount"]

/-- Names of the calls that stand for conditionals and loops in markup. -/
def helpers : List String :=
  ["$if", "$elseif", "$else", "$each"]

/-- Whether a name can stand for something that the file itself declares. A capital starts the name
of a type or constructor. -/
def isCandidate (name : String) : Bool :=
  !(keywords.contains name || typeNames.contains name || globals.contains name ||
    helpers.contains name || name.toList.head?.any fun c => 'A' ≤ c && c ≤ 'Z')

def binders : List String :=
  ["const", "let", "var", "function", "class"]

/-- The names that a piece of code binds and reads, in the order of the text. -/
structure Uses where
  bound : List String := []
  read : List String := []

def Uses.append (a b : Uses) : Uses :=
  ⟨a.bound ++ b.bound, a.read ++ b.read⟩

instance : Append Uses := ⟨Uses.append⟩

def followsBinder : Option Item → Bool
  | some (.token t) => binders.contains t.value
  | _ => false

def isPunct (item : Option Item) (value : String) : Bool :=
  item.any (·.isPunct value)

def isName (item : Option Item) (value : String) : Bool :=
  item.any (·.isName value)

/-- Whether a group in parentheses lists parameters, by the two items before it and the one
after. -/
def listsParameters (before prev next : Option Item) : Bool :=
  isPunct next "=>" || isName prev "function" || isName prev "catch" ||
    (prev.any (·.name?.isSome) && (isName before "function" || isPunct before "*"))

/-- The uses of a name that stands in the given brackets between two items. -/
def usesOfName (bracket : Option Bracket) (prev next : Option Item) (name : String) : Uses :=
  if isPunct prev "." || isPunct prev "?." then
    {}
  else if bracket == some .curly && isPunct next ":" && (prev.isNone || isPunct prev ",") then
    {}
  else if prev.any (fun item => item.name?.any binders.contains) || isPunct next "=>" then
    { bound := [name] }
  else
    { read := [name] }

mutual

/-- The uses of an item that stands in the given brackets, with the two items before it and the one
after. `markup` gives those of the markup at an offset. -/
def usesOfItem (markup : Nat → Except ScanError Uses) (bracket : Option Bracket)
    (before prev next : Option Item) : Item → Except ScanError Uses
  | .token t =>
    match t.kind with
    | .markup => markup t.start
    | .name => .ok (usesOfName bracket prev next t.value)
    | _ => .ok {}
  | .group b opener items closer => do
    let binds :=
      match b with
      | .paren => listsParameters before prev next
      | _ => followsBinder prev
    let bound := if binds then (Item.group b opener items closer).boundNames else []
    let inner ← usesOfItems markup (some b) none none items
    return { bound := bound } ++ inner

def usesOfItems (markup : Nat → Except ScanError Uses) (bracket : Option Bracket)
    (before prev : Option Item) : List Item → Except ScanError Uses
  | [] => .ok {}
  | item :: items => do
    let first ← usesOfItem markup bracket before prev items.head? item
    let rest ← usesOfItems markup bracket prev (some item) items
    return first ++ rest

end

/-- The uses in a window of the text. Markup is entered through its slots, each of which lies inside
the window; the first argument bounds how deep they nest. -/
def usesInWindow (text : String) : Nat → Nat → Nat → Except ScanError Uses
  | 0, _, _ => .ok {}
  | n + 1, start, stop => do
    let items ← Token.group (← Token.scanWindow text start stop)
    let markup (pos : Nat) : Except ScanError Uses := do
      let slots ← Token.markupSlots text pos
      slots.foldlM (fun uses (start, stop) => return uses ++ (← usesInWindow text n start stop)) {}
    usesOfItems markup none none none items

/-- The names that a window of the text reads from outside, in the order of their first use. -/
def freeInWindow (text : String) (start stop : Nat) (exclude : List String) :
    Except ScanError (List String) := do
  let uses ← usesInWindow text (text.length + 1) start stop
  return distinct (uses.read.filter fun name =>
    !(exclude.contains name || uses.bound.contains name) && isCandidate name)

def free (text : String) (exclude : List String) : Except ScanError (List String) :=
  freeInWindow text 0 text.length exclude

end Name
end ComponentCompiler
