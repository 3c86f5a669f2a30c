import ComponentCompiler.Token.Gap

/-!
This module contains the constructs that nest in each other: templates, bracketed groups and markup.
A template holds groups, a group holds tokens and so templates and markup, markup holds groups and
markup. The functions get the characters from inside a construct on and return those that follow it.

Their first argument bounds how deep and how far they read. Every call is on a shorter text than the
one before, so the length of the text is enough.
-/

namespace ComponentCompiler
namespace Token

/-- A `<` starts markup where an operand is due and a letter or `>` follows. -/
def looksLikeMarkup : List Char → Bool
  | [] => false
  | c :: _ => c == '>' || Text.isLetter c

/-- A slot `{...}` of a markup tree, given by how many characters are left at the start and at
the end of what stands between its brackets. -/
structure Slot where
  startLeft : Nat
  stopLeft : Nat
  deriving DecidableEq, Repr

/-- Reads one token that starts with `c`, given how to read on inside a template and inside markup
that has a certain number of characters left at its start. -/
def lexeme (template : Nat → List Char → Except Fault (List Char))
    (markup : Nat → List Char → Except Fault (List Slot × List Char))
    (operand : Bool) (c : Char) (cs : List Char) : Except Fault (Kind × List Char) :=
  let left := cs.length + 1
  if c = '\'' || c = '"' then
    match stringRest? c cs with
    | some rest => .ok (.string, rest)
    | none => .error ⟨.unclosedString, left⟩
  else if c = '\x60' then
    return (.template, ← template left cs)
  else if Text.isAsciiDigit c || (c == '.' && cs.head?.any Text.isAsciiDigit) then
    .ok (.number, numberRest (c :: cs))
  else if isNameStart c then
    .ok (.name, nameRest cs)
  else if c = '<' && operand && looksLikeMarkup cs then
    return (.markup, (← markup left cs).2)
  else if c = '/' && operand then
    match regexRest? false cs with
    | some rest => .ok (.regex, rest)
    | none => .error ⟨.unclosedRegex, left⟩
  else
    .ok (.punct, operatorRest (c :: cs))

def taken (cs rest : List Char) : String :=
  String.ofList (cs.take (cs.length - rest.length))

/-- Reads the closing tag of an element at the `</` that ends its children. -/
def closingTag (tag : List Char) (cs : List Char) : Except Fault (List Char) :=
  let tagText := String.ofList tag
  match tagName? (Text.dropBlank (cs.drop 2)) with
  | none => .error ⟨.mismatchedTag "" tagText, cs.length⟩
  | some (found, rest) =>
    if found = tag then
      match Text.dropBlank rest with
      | '>' :: rest => .ok rest
      | rest =>
        .error ⟨.malformedMarkup s!"Expected '>' to end '</{tagText}'.", rest.length⟩
    else
      .error ⟨.mismatchedTag (String.ofList found) tagText, cs.length⟩

/-! ### Steps

What each of the readers does first, given the readers for what is left. -/

section

variable (slot template : List Char → Except Fault (List Char))
  (attributes children : List Char → Except Fault (List Slot × List Char))

def templateStep (left : Nat) (cs : List Char) : Except Fault (List Char) :=
  match cs with
  | [] => .error ⟨.unclosedTemplate, left⟩
  | c :: cs =>
    if c = '\\' then
      template (cs.drop 1)
    else if c = '\x60' then
      .ok cs
    else if c = '$' then
      match cs with
      | '\x7b' :: inner => do
        let rest ← slot inner
        template rest
      | _ => template cs
    else
      template cs

/-- Reads on inside a group to the end of its bracket. `inner` are the brackets that are open inside
it, the last one first. -/
def groupStep (token : Bool → Char → List Char → Except Fault (Kind × List Char))
    (group : List Bracket → Bool → List Char → Except Fault (List Char)) (bracket : Bracket)
    (left : Nat)
    (inner : List Bracket) (operand : Bool) (cs : List Char) : Except Fault (List Char) := do
  let (_, cs) ← afterGap false cs
  match cs with
  | [] => .error ⟨.unclosedBracket bracket.opening.toString, left⟩
  | c :: more =>
    let (kind, rest) ← token operand c more
    let operand := operandAfter kind (taken cs rest)
    match Bracket.ofOpening? c, Bracket.ofClosing? c with
    | some opened, _ => group (opened :: inner) operand rest
    | none, some closed =>
      match inner with
      | [] =>
        if closed = bracket then .ok rest
        else .error ⟨.unmatchedBracket c.toString, cs.length⟩
      | innermost :: outer =>
        if closed = innermost then group outer operand rest
        else .error ⟨.unmatchedBracket c.toString, cs.length⟩
    | none, none => group inner operand rest

/-- Reads on after the `<` of an element or fragment, collecting the slots that belong to it. -/
def markupStep (attributes : List Char → List Char → Except Fault (List Slot × List Char))
    (cs : List Char) : Except Fault (List Slot × List Char) :=
  match cs with
  | '>' :: cs => do
    let (slots, rest) ← children cs
    match rest with
    | '<' :: '/' :: '>' :: rest => .ok (slots, rest)
    | rest =>
      .error ⟨.malformedMarkup "Expected '</>' to close the fragment.", rest.length⟩
  | cs =>
    match tagName? cs with
    | none => .error ⟨.malformedMarkup "Expected a tag name after '<'.", cs.length⟩
    | some (tag, rest) => attributes tag rest

def attributesStep (left : Nat) (tag cs : List Char) : Except Fault (List Slot × List Char) :=
  let tagText := String.ofList tag
  match Text.dropBlank cs with
  | [] => .error ⟨.malformedMarkup s!"Tag '<{tagText}>' is never closed.", left⟩
  | '/' :: '>' :: rest => .ok ([], rest)
  | '>' :: cs => do
    let (slots, rest) ← children cs
    return (slots, ← closingTag tag rest)
  | '\x7b' :: inner => do
    let rest ← slot inner
    let (slots, rest') ← attributes rest
    return (⟨inner.length, rest.length + 1⟩ :: slots, rest')
  | c :: cs =>
    match attributeName? (c :: cs) with
    | none =>
      .error ⟨.malformedMarkup s!"Unexpected character '{c}' in tag '<{tagText}>'.", cs.length + 1⟩
    | some (name, rest) =>
      match Text.dropBlank rest with
      | '=' :: rest =>
        match Text.dropBlank rest with
        | '\x7b' :: inner => do
          let rest ← slot inner
          let (slots, rest') ← attributes rest
          return (⟨inner.length, rest.length + 1⟩ :: slots, rest')
        | '\'' :: value =>
          match attributeStringRest? '\'' value with
          | some rest => attributes rest
          | none => .error ⟨.unclosedString, value.length + 1⟩
        | '"' :: value =>
          match attributeStringRest? '"' value with
          | some rest => attributes rest
          | none => .error ⟨.unclosedString, value.length + 1⟩
        | rest =>
          let nameText := String.ofList name
          .error ⟨.malformedMarkup s!"Expected a value for attribute '{nameText}'.", rest.length⟩
      | rest => attributes rest

/-- Reads on among the children of an element up to the `</` that ends them. -/
def childrenStep (markup : Nat → List Char → Except Fault (List Slot × List Char)) (left : Nat)
    (cs : List Char) : Except Fault (List Slot × List Char) :=
  match cs with
  | [] => .error ⟨.malformedMarkup "The element is never closed.", left⟩
  | '<' :: '/' :: rest => .ok ([], '<' :: '/' :: rest)
  | '\x7b' :: inner => do
    let rest ← slot inner
    let (slots, rest') ← children rest
    return (⟨inner.length, rest.length + 1⟩ :: slots, rest')
  | '<' :: inner => do
    let (slots, rest) ← markup (inner.length + 1) inner
    let (more, rest) ← children rest
    return (slots ++ more, rest)
  | _ :: cs => children cs

end

/-! ### Readers -/

mutual

def templateRest : Nat → Nat → List Char → Except Fault (List Char)
  | 0, left, _ => .error ⟨.unclosedTemplate, left⟩
  | n + 1, left, cs =>
    templateStep (fun inner => groupRest n .curly (inner.length + 1) [] true inner)
      (templateRest n left) left cs

def groupRest : Nat → Bracket → Nat → List Bracket → Bool → List Char → Except Fault (List Char)
  | 0, bracket, left, _, _, _ => .error ⟨.unclosedBracket bracket.opening.toString, left⟩
  | n + 1, bracket, left, inner, operand, cs =>
    groupStep (lexeme (templateRest n) (markupRest n))
      (groupRest n bracket left) bracket left inner operand cs

def markupRest : Nat → Nat → List Char → Except Fault (List Slot × List Char)
  | 0, left, _ => .error ⟨.malformedMarkup "The element is never closed.", left⟩
  | n + 1, left, cs => markupStep (childrenRest n left) (attributesRest n left) cs

def attributesRest : Nat → Nat → List Char → List Char → Except Fault (List Slot × List Char)
  | 0, left, _, _ => .error ⟨.malformedMarkup "The element is never closed.", left⟩
  | n + 1, left, tag, cs =>
    attributesStep (fun inner => groupRest n .curly (inner.length + 1) [] true inner)
      (attributesRest n left tag)
      (childrenRest n left) left tag cs

def childrenRest : Nat → Nat → List Char → Except Fault (List Slot × List Char)
  | 0, left, _ => .error ⟨.malformedMarkup "The element is never closed.", left⟩
  | n + 1, left, cs =>
    childrenStep (fun inner => groupRest n .curly (inner.length + 1) [] true inner)
      (childrenRest n left)
      (markupRest n) left cs

end

end Token
end ComponentCompiler
