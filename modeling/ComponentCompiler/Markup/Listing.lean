import ComponentCompiler.Markup.Parse

/-!
This module contains the flat view of markup: the pieces that a tree is made of, one after the other
with their ranges, up to the end of the tree or to where it can not be read any further.
-/

namespace ComponentCompiler
namespace Markup

inductive Piece.Kind where
  | lt
  | ltSlash
  | gt
  | slashGt
  | fragOpen
  | fragClose
  | tag
  | attr
  | eq
  | string
  | expr
  | spread
  | text
  deriving DecidableEq, Repr

def Piece.Kind.label : Piece.Kind → String
  | lt => "LT"
  | ltSlash => "LT_SLASH"
  | gt => "GT"
  | slashGt => "SLASH_GT"
  | fragOpen => "FRAG_OPEN"
  | fragClose => "FRAG_CLOSE"
  | tag => "TAG"
  | attr => "ATTR"
  | eq => "EQ"
  | string => "STRING"
  | expr => "EXPR"
  | spread => "SPREAD"
  | text => "TEXT"

/-- A piece of markup. Its range is given by how many characters are left at its start and end. -/
structure Piece where
  kind : Piece.Kind
  value : String
  startLeft : Nat
  stopLeft : Nat
  deriving DecidableEq, Repr

abbrev Listed := List Piece × Option Stop

def listed (pieces : List Piece) (rest : Listed) : Listed :=
  (pieces ++ rest.1, rest.2)

/-- Stops the listing where reading failed and continues it otherwise. -/
def proceed (result : Reading α) (next : α → Listed) : Listed :=
  match result with
  | .ok value => next value
  | .error stop => ([], some stop)

def piece (kind : Piece.Kind) (cs rest : List Char) : Piece :=
  ⟨kind, Token.taken cs rest, cs.length, rest.length⟩

inductive Part where
  | children
  | tag
  | attributes
  | closing

/-- After something was closed, the listing goes on inside the open elements that are left. It ends
with the outermost tree. -/
def resume (next : List (List Char) → List Char → Listed) (tags : List (List Char))
    (rest : List Char) : Listed :=
  match tags with
  | [] =>
    if rest.all Text.isBlank then ([], none)
    else
      proceed (malformed "Unexpected content after the markup tree." rest.length : Reading Unit)
        fun _ => ([], none)
  | tags => next tags rest

/-- Lists the pieces from `cs` on, inside the open elements whose tags are given, the last one
first; a fragment has an empty tag. -/
def listFrom : Nat → Part → List (List Char) → List Char → Listed
  | 0, _, _, _ => ([], none)
  | n + 1, part, tags, cs =>
    let close (rest : List Char) : Listed := resume (listFrom n .children) tags.tail rest
    let stop (result : Reading Unit) : Listed := proceed result fun _ => ([], none)
    let expected := String.ofList (tags.headD [])
    match part, cs with
    | _, [] => stop neverClosed
    | .children, '<' :: '/' :: '>' :: rest =>
      match tags with
      | [] :: _ => listed [piece .fragClose cs rest] (close rest)
      | _ => stop (fail (.mismatchedTag "" expected) cs.length)
    | .children, '<' :: '/' :: rest =>
      listed [piece .ltSlash cs rest] (listFrom n .closing tags (Text.dropBlank rest))
    | .children, '<' :: '>' :: rest =>
      listed [piece .fragOpen cs rest] (listFrom n .children ([] :: tags) rest)
    | .children, '<' :: rest => listed [piece .lt cs rest] (listFrom n .tag tags rest)
    | .children, '\x7b' :: inner =>
      if tags.isEmpty then
        stop (malformed "Expected '<' to start the markup." cs.length)
      else
        proceed (slotRest inner) fun rest =>
          let pieces :=
            if slotHasTokens inner rest then
              [⟨.expr, slotText inner rest, inner.length, rest.length + 1⟩]
            else
              []
          listed pieces (listFrom n .children tags rest)
    | .children, cs =>
      if tags.isEmpty then
        stop (malformed "Expected '<' to start the markup." cs.length)
      else
        let rest := cs.dropWhile isText
        listed [piece .text cs rest] (listFrom n .children tags rest)
    | .tag, cs =>
      match Token.tagName? cs with
      | none => stop (malformed "Expected a tag name after '<'." cs.length)
      | some (tag, rest) =>
        listed [piece .tag cs rest] (listFrom n .attributes (tag :: tags) rest)
    | .attributes, cs =>
      match Text.dropBlank cs with
      | [] => ([], some .pastEnd)
      | '/' :: '>' :: rest => listed [piece .slashGt ('/' :: '>' :: rest) rest] (close rest)
      | '>' :: rest =>
        listed [piece .gt ('>' :: rest) rest] (listFrom n .children tags rest)
      | '\x7b' :: inner =>
        proceed (slotRest inner) fun rest =>
          match (Text.trim (slotText inner rest)).toList with
          | '.' :: '.' :: '.' :: source =>
            let value := Text.trim (String.ofList source)
            listed [⟨.spread, value, inner.length + 1, rest.length⟩]
              (listFrom n .attributes tags rest)
          | _ =>
            stop (malformed "Only spread expressions may appear between attributes."
              (inner.length + 1))
      | c :: more =>
        match Token.attributeName? (c :: more) with
        | none => stop (malformed s!"Unexpected character '{c}' in tag '<{expected}>'."
            (more.length + 1))
        | some (name, after) =>
          listed [piece .attr (c :: more) after] <|
            match Text.dropBlank after with
            | '=' :: value =>
              listed [piece .eq ('=' :: value) value] <|
                proceed (attributeValue (String.ofList name) value)
                  fun (text, isExpression, stop, rest) =>
                    let start := (Text.dropBlank value).length
                    let pieces :=
                      if isExpression then [⟨.expr, text, start - 1, stop⟩]
                      else [⟨.string, text, start, stop⟩]
                    listed pieces (listFrom n .attributes tags rest)
            | rest => listFrom n .attributes tags rest
    | .closing, cs =>
      match Token.tagName? cs with
      | none => stop (fail (.mismatchedTag "" expected) cs.length)
      | some (found, rest) =>
        let foundText := String.ofList found
        if tags.head? = some found then
          listed [piece .tag cs rest] <|
            match Text.dropBlank rest with
            | '>' :: rest => listed [piece .gt ('>' :: rest) rest] (close rest)
            | rest => stop (malformed s!"Expected '>' to end '</{foundText}'." rest.length)
        else
          stop (fail (.mismatchedTag foundText expected) cs.length)

def list (text : String) : Listed :=
  let cs := Text.dropBlank text.toList
  listFrom (cs.length + 1) .children [] cs

end Markup
end ComponentCompiler
