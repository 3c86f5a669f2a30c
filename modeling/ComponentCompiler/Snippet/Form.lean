import ComponentCompiler.Name.Free
import ComponentCompiler.Snippet.Basic

/-!
This module contains the forms that an expression in a slot can have: conditions with `&&` and `?`,
calls, maps and arrow functions.
-/

namespace ComponentCompiler
namespace Snippet

/-- The items before the last one that a test holds of, and those after it. -/
def splitLast? (p : Item → Bool) (items : List Item) : Option (List Item × List Item) :=
  match items.reverse.dropWhile (!p ·) with
  | [] => none
  | _ :: before => some (before.reverse, items.drop (before.length + 1))

/-- Splits `condition && value` at its last `&&`, if no weaker operator is there. -/
def splitAnd? (s : Snippet) : Except ScanError (Option (Snippet × Snippet)) := do
  let items ← s.items
  if items.any fun i => i.isPunct "||" || i.isPunct "??" || i.isPunct "?" then
    return none
  match splitLast? (·.isPunct "&&") items with
  | some (first :: before, second :: after) =>
    return some (s.covering (first :: before), s.covering (second :: after))
  | _ => return none

/-- The items before and after the `:` that belongs to a `?` just before them. -/
def splitColon? : Nat → List Item → List Item → Option (List Item × List Item)
  | _, _, [] => none
  | depth, taken, item :: items =>
    if item.isPunct "?" then
      splitColon? (depth + 1) (item :: taken) items
    else if item.isPunct ":" then
      match depth with
      | 0 => some (taken.reverse, items)
      | depth + 1 => splitColon? depth (item :: taken) items
    else
      splitColon? depth (item :: taken) items

/-- Splits `condition ? first : second` at its first `?` and the `:` that belongs to it. -/
def splitTernary? (s : Snippet) : Except ScanError (Option (Snippet × Snippet × Snippet)) := do
  let items ← s.items
  let condition := items.takeWhile (!·.isPunct "?")
  match condition, splitColon? 0 [] (items.drop (condition.length + 1)) with
  | _ :: _, some (first :: firsts, second :: seconds) =>
    return some (s.covering condition, s.covering (first :: firsts), s.covering (second :: seconds))
  | _, _ => return none

structure Call where
  callee : String
  arguments : List Snippet
  snippet : Snippet
  deriving DecidableEq, Repr

def isDotted : List Item → Bool
  | [name] => name.name?.isSome
  | name :: dot :: more => name.name?.isSome && dot.isPunct "." && isDotted more
  | [] => false

/-- Recognises a call of a name or of names joined by points. -/
def call? (s : Snippet) : Except ScanError (Option Call) := do
  match (← s.items).reverse with
  | .group .paren opener items _ :: callee =>
    if isDotted callee.reverse then
      return some ⟨Text.trim (Text.slice s.text 0 opener.start),
        (Item.split "," items).map s.covering, s⟩
    else
      return none
  | _ => return none

/-- Recognises `iterable.map(callback)`; the result holds the two. -/
def mapCall? (s : Snippet) : Except ScanError (Option (Snippet × Snippet)) := do
  match (← s.items).reverse with
  | .group .paren _ items _ :: name :: dot :: iterable =>
    match Item.split "," items, iterable with
    | [callback], _ :: _ =>
      if name.isName "map" && (dot.isPunct "." || dot.isPunct "?.") then
        return some (s.covering iterable.reverse, s.covering callback)
      else
        return none
    | _, _ => return none
  | _ => return none

/-- An arrow function. For a block, the body is what it returns and the prelude what it does
before. -/
structure Arrow where
  parameters : List String
  names : List String
  body : Snippet
  prelude : Option Snippet
  deriving DecidableEq, Repr

/-- The parameters of an arrow function as they are written, and the names that they bind. -/
def arrowHead? (s : Snippet) (head : Item) : Option (List String × List String) :=
  match head with
  | .token t => if t.kind = .name then some ([t.value], [t.value]) else none
  | .group .paren _ items _ =>
    some ((Item.split "," items).map fun part => (s.covering part).text, head.boundNames)
  | _ => none

/-- What a block returns, and what it does before that. -/
def returned? (s : Snippet) (opener : Token) (items : List Item) :
    Option (Snippet × Option Snippet) :=
  let before := items.takeWhile (!·.isName "return")
  match items.drop before.length with
  | [] => none
  | keyword :: after =>
    match Item.before ";" after with
    | [] => none
    | value =>
      let prelude :=
        if before.isEmpty then none else some (s.sub opener.stop keyword.start).strip
      some (s.covering value, prelude)

/-- Recognises `x => body`, `(x, i) => body` and the same with a block that returns the body. -/
def arrow? (s : Snippet) : Except ScanError (Option Arrow) := do
  match ← s.items with
  | head :: arrow :: first :: more =>
    if arrow.isPunct "=>" then
      match s.arrowHead? head with
      | none => return none
      | some (parameters, names) =>
        match first, more with
        | .group .curly opener items _, [] =>
          return (s.returned? opener items).map fun (body, prelude) =>
            ⟨parameters, names, body, prelude⟩
        | _, _ => return some ⟨parameters, names, s.covering (first :: more), none⟩
    else
      return none
  | _ => return none

/-! ### Dependencies -/

/-- The names that tokens read as `name.value`, given the token before them. -/
def rootsOf (before : Option Token) : List Token → List String
  | [] => []
  | token :: more =>
    let isRoot : Bool :=
      match more with
      | dot :: field :: _ =>
        token.kind == .name && !before.any isDot && isDot dot && field.isName "value"
      | _ => false
    let rest := rootsOf (some token) more
    if isRoot then token.value :: rest else rest
where
  isDot (t : Token) : Bool :=
    t.value == "." || t.value == "?."

/-- The names that are read as `name.value`, in the order of their first use. -/
def valueRoots (s : Snippet) : Except ScanError (List String) := do
  return distinct (rootsOf none (← Token.scan s.text))

/-- The reactive containers that an expression reads: those that are known, and whatever it reads as
`name.value`. Bound names are no containers. -/
def dependencies (s : Snippet) (reactive bound : List String) : Except ScanError (List String) := do
  let roots ← s.valueRoots
  return (← Name.free s.text bound).filter fun name =>
    reactive.contains name || roots.contains name

/-! ### Helper calls -/

/-- The call that a slot is, if it is one of the helpers that make up conditionals. -/
def chainCall? (s : Snippet) : Except ScanError (Option Call) := do
  match ← (← s.stripParens).call? with
  | some call =>
    return if ["$if", "$elseif", "$else"].contains call.callee then some call else none
  | none => return none

/-- Whether a helper is called with as many arguments as it takes. -/
def Call.hasArity (call : Call) : Bool :=
  match call.callee with
  | "$if" | "$each" => call.arguments.length == 2 || call.arguments.length == 3
  | "$elseif" => call.arguments.length == 2
  | _ => call.arguments.length == 1

end Snippet
end ComponentCompiler
