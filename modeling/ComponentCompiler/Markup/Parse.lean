import ComponentCompiler.Failure
import ComponentCompiler.Markup.Node
import ComponentCompiler.Statement.Basic
import ComponentCompiler.Token.Nested

/-!
This module contains the reading of markup trees. As in the reading of tokens, functions get the
characters from some place on and return those that follow, and a place is given by the number of
characters that are left there.
-/

namespace ComponentCompiler
namespace Markup

inductive Stop where
  | fault (fault : Fault)
  /-- White space ran up to the end of the text inside a tag. -/
  | pastEnd

abbrev Reading := Except Stop

def fail (problem : Problem) (left : Nat) : Reading α :=
  .error (.fault ⟨problem, left⟩)

def malformed (details : String) (left : Nat) : Reading α :=
  fail (.malformedMarkup details) left

def neverClosed : Reading α :=
  malformed "The markup is never closed." 0

def slotRest (inner : List Char) : Reading (List Char) :=
  (Token.groupRest (inner.length + 1) .curly (inner.length + 1) [] true inner).mapError .fault

def slotText (inner rest : List Char) : String :=
  Token.taken inner ('\x7d' :: rest)

/-- Whether a slot holds more than white space and comments. -/
def slotHasTokens (inner rest : List Char) : Bool :=
  match Token.afterGap false inner with
  | .ok (_, cs) => rest.length + 1 < cs.length
  | .error _ => true

/-- Line breaks and the white space around them become one blank; a text that starts or ends with
a line break loses it there. -/
def normalizeText (raw : String) : String :=
  match Text.lines raw with
  | [] | [_] => raw
  | first :: rest =>
    let middle := rest.dropLast.map Text.trim
    let last := Text.trimStart (rest.getLast?.getD "")
    String.intercalate " " ((Text.trimEnd first :: middle ++ [last]).filter (· ≠ ""))

/-- Reads the value of an attribute after its equals sign. The result holds its text, whether it is
an expression, how many characters are left where the value ends, and what follows. -/
def attributeValue (name : String) (cs : List Char) :
    Reading (String × Bool × Nat × List Char) :=
  match Text.dropBlank cs with
  | '\x7b' :: inner => do
    let rest ← slotRest inner
    return (slotText inner rest, true, rest.length + 1, rest)
  | c :: value =>
    if c = '\'' || c = '"' then
      match Token.attributeStringRest? c value with
      | some rest => .ok (Token.taken value (c :: rest), false, rest.length, rest)
      | none => fail .unclosedString (value.length + 1)
    else
      malformed s!"Expected a value for attribute '{name}'." (value.length + 1)
  | [] => malformed s!"Expected a value for attribute '{name}'." 0

/-- Reads one attribute of an element at its first character. -/
def oneAttribute (place : Nat → Nat → Span) (tag : String) :
    List Char → Reading (Attribute × List Char)
  | [] => .error .pastEnd
  | '\x7b' :: inner => do
    let rest ← slotRest inner
    match (Text.trim (slotText inner rest)).toList with
    | '.' :: '.' :: '.' :: source =>
      return (.spread (place (inner.length + 1) rest.length) (Text.trim (String.ofList source)),
        rest)
    | _ => malformed "Only spread expressions may appear between attributes." (inner.length + 1)
  | c :: cs =>
    match Token.attributeName? (c :: cs) with
    | none => malformed s!"Unexpected character '{c}' in tag '<{tag}>'." (cs.length + 1)
    | some (name, after) =>
      let name := String.ofList name
      match Text.dropBlank after with
      | '=' :: value => do
        let (value, isExpression, stop, rest) ← attributeValue name value
        let span := place (cs.length + 1) stop
        if isExpression then
          return (.expression span name value, rest)
        else
          return (.string span name value, rest)
      | rest => return (.boolean (place (cs.length + 1) after.length) name, rest)

/-- Reads the attributes of an element up to the end of its opening tag. The result tells whether
the tag closes itself. -/
def attributes (place : Nat → Nat → Span) (tag : String) :
    Nat → List Char → Reading (List Attribute × Bool × List Char)
  | 0, _ => neverClosed
  | _, [] => neverClosed
  | n + 1, cs =>
    match Text.dropBlank cs with
    | '/' :: '>' :: rest => .ok ([], true, rest)
    | '>' :: rest => .ok ([], false, rest)
    | cs => do
      let (attr, rest) ← oneAttribute place tag cs
      let (more, closed, rest) ← attributes place tag n rest
      return (attr :: more, closed, rest)

def closingTag (tag : List Char) (cs : List Char) : Reading (List Char) :=
  match Text.dropBlank cs with
  | [] => neverClosed
  | cs =>
    match Token.tagName? cs with
    | none => fail (.mismatchedTag "" (String.ofList tag)) cs.length
    | some (found, rest) =>
      let foundText := String.ofList found
      if found = tag then
        match Text.dropBlank rest with
        | '>' :: rest => .ok rest
        | rest => malformed s!"Expected '>' to end '</{foundText}'." rest.length
      else
        fail (.mismatchedTag foundText (String.ofList tag)) cs.length

/-- What encloses a list of children: an element with its tag, or a fragment, of which it matters
whether it has content so far. -/
inductive Enclosing where
  | element (tag : List Char)
  | fragment (hasContent : Bool)

def Enclosing.withContent : Enclosing → Enclosing
  | element tag => element tag
  | fragment _ => fragment true

def unexpectedClosing (expected : List String) (left : Nat) : Reading α :=
  fail (.unexpectedToken (Statement.expectation expected "</")) left

/-- Reads the closing tag of what encloses the children, after its `</`, where `left` characters
are left. -/
def Enclosing.close (left : Nat) : Enclosing → List Char → Reading (List Char)
  | fragment _, '>' :: rest => .ok rest
  | fragment true, _ => unexpectedClosing ["FRAG_CLOSE"] left
  | fragment false, _ =>
    unexpectedClosing
      ["an expression '\x7b ... \x7d'", "FRAG_CLOSE", "FRAG_OPEN", "'<'", "text"] left
  | element tag, '>' :: _ => fail (.mismatchedTag "" (String.ofList tag)) left
  | element tag, rest => closingTag tag rest

def isText (c : Char) : Bool :=
  c != '<' && c != '\x7b'

mutual

def node (place : Nat → Nat → Span) : Nat → List Char → Reading (Node × List Char)
  | 0, _ => neverClosed
  | n + 1, cs =>
    let left := cs.length + 1
    match cs with
    | [] => neverClosed
    | '>' :: inner => do
      let (nodes, rest) ← children place n (.fragment false) inner
      return (.fragment (place left rest.length) nodes, rest)
    | cs =>
      match Token.tagName? cs with
      | none => malformed "Expected a tag name after '<'." cs.length
      | some (tag, rest) => do
        let tagText := String.ofList tag
        let (attributes, closed, rest) ← attributes place tagText (rest.length + 1) rest
        if closed then
          return (.element (place left rest.length) tagText attributes [], rest)
        else
          let (nodes, rest) ← children place n (.element tag) rest
          return (.element (place left rest.length) tagText attributes nodes, rest)

def children (place : Nat → Nat → Span) :
    Nat → Enclosing → List Char → Reading (List Node × List Char)
  | 0, _, _ => neverClosed
  | n + 1, enclosing, cs =>
    match cs with
    | [] => neverClosed
    | '<' :: '/' :: rest => do
      return ([], ← enclosing.close cs.length rest)
    | '<' :: inner => do
      let (child, rest) ← node place n inner
      let (more, rest) ← children place n enclosing.withContent rest
      return (child :: more, rest)
    | '\x7b' :: inner => do
      let rest ← slotRest inner
      if slotHasTokens inner rest then
        let (more, rest') ← children place n enclosing.withContent rest
        return (.slot (place inner.length (rest.length + 1)) (slotText inner rest) :: more, rest')
      else
        children place n enclosing rest
    | cs => do
      let rest := cs.dropWhile isText
      let value := normalizeText (String.ofList (cs.takeWhile isText))
      let (more, rest') ← children place n enclosing.withContent rest
      if value = "" then
        return (more, rest')
      else
        return (.text (place cs.length rest.length) value :: more, rest')

end

/-- Reads one markup tree with nothing but white space around it. -/
def read (place : Nat → Nat → Span) (cs : List Char) : Reading Node :=
  match Text.dropBlank cs with
  | [] => neverClosed
  | '<' :: '/' :: '>' :: rest => fail (.mismatchedTag "" "") (rest.length + 3)
  | '<' :: '/' :: rest => unexpectedClosing ["FRAG_OPEN", "'<'"] (rest.length + 2)
  | '<' :: inner => do
    let (node, rest) ← node place (inner.length + 1) inner
    if rest.all Text.isBlank then
      return node
    else
      malformed "Unexpected content after the markup tree." rest.length
  | rest => malformed "Expected '<' to start the markup." rest.length

/-- The place of a part of a snippet, given by how many characters are left where it starts and
where it stops. -/
def placeIn (snippet : List Char) (file : String) (origin : Origin) (startLeft stopLeft : Nat) :
    Span :=
  origin.span snippet (snippet.length - startLeft) (snippet.length - stopLeft) (some file)

/-- The tree that a snippet is written as; `origin` is where the snippet starts in its file. -/
def Node.parse (snippet : String) (file : String) (origin : Origin) : Except Failure Node :=
  let cs := snippet.toList
  match read (placeIn cs file origin) cs with
  | .ok node => .ok node
  | .error .pastEnd => .error (.scan .pastEnd)
  | .error (.fault fault) =>
    .error (.ofScan (fault.toError 0 cs.length) snippet origin file)

end Markup
end ComponentCompiler
