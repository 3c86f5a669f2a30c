import ComponentCompiler.Token.Basic

/-!
This module contains the nesting of tokens by their brackets.
-/

namespace ComponentCompiler

/-- A token, or a bracketed region with its opening and closing token. -/
inductive Item where
  | token (token : Token)
  | group (bracket : Bracket) (opener : Token) (items : List Item) (closer : Token)
  deriving Repr

namespace Item

def start : Item → Nat
  | token t => t.start
  | group _ opener _ _ => opener.start

def stop : Item → Nat
  | token t => t.stop
  | group _ _ _ closer => closer.stop

def newlineBefore : Item → Bool
  | token t => t.newlineBefore
  | group _ opener _ _ => opener.newlineBefore

def isPunct (item : Item) (value : String) : Bool :=
  match item with
  | token t => t.isPunct value
  | group .. => false

def isName (item : Item) (value : String) : Bool :=
  match item with
  | token t => t.isName value
  | group .. => false

def name? : Item → Option String
  | token t => if t.kind = .name then some t.value else none
  | group .. => none

def inside? (bracket : Bracket) : Item → Option (List Item)
  | token _ => none
  | group b _ items _ => if b = bracket then some items else none

mutual

def flatten : Item → List Token
  | token t => [t]
  | group _ opener items closer => opener :: (flattenAll items ++ [closer])

def flattenAll : List Item → List Token
  | [] => []
  | item :: items => flatten item ++ flattenAll items

end

/-- Splits items at a punctuator that stands outside every group; empty parts are dropped. -/
def split (separator : String) (items : List Item) : List (List Item) :=
  (Text.splitOnP (·.isPunct separator) items).filter (!·.isEmpty)

end Item

namespace Token

/-- A bracket that is still open: its token and the items before it, the last one first. -/
structure Open where
  bracket : Bracket
  opener : Token
  before : List Item

def group (tokens : List Token) : Except ScanError (List Item) :=
  go [] [] tokens
where
  go : List Open → List Item → List Token → Except ScanError (List Item)
    | [], items, [] => .ok items.reverse
    | o :: _, _, [] => .error (.problem (.unclosedBracket o.opener.value) o.opener.start)
    | stack, items, t :: ts =>
      match t.opens?, t.closes? with
      | some bracket, _ => go (⟨bracket, t, items⟩ :: stack) [] ts
      | none, some bracket =>
        match stack with
        | [] => .error (.problem (.unmatchedBracket t.value) t.start)
        | o :: stack =>
          if o.bracket = bracket then
            go stack (.group bracket o.opener items.reverse t :: o.before) ts
          else
            .error (.problem (.unmatchedBracket t.value) t.start)
      | none, none => go stack (.token t :: items) ts

end Token
end ComponentCompiler
