/-!
This module contains JSON values with their fields in a fixed order, and the two ways in which JSON
text is written: a string literal that keeps every character it can, and an indented document in
ASCII.
-/

namespace ComponentCompiler

inductive Json where
  | null
  | bool (value : Bool)
  | num (value : Int)
  | str (value : String)
  | arr (items : List Json)
  | obj (fields : List (String × Json))
  deriving Repr, Inhabited

namespace Json

def hexDigit (n : Nat) : Char :=
  if n < 10 then Char.ofNat ('0'.toNat + n) else Char.ofNat ('a'.toNat + (n - 10))

def unitEscape (n : Nat) : List Char :=
  ['\\', 'u', hexDigit (n / 0x1000 % 16), hexDigit (n / 0x100 % 16), hexDigit (n / 0x10 % 16),
    hexDigit (n % 16)]

/-- The escape of a character: two units where one is too small. -/
def charEscape (c : Char) : List Char :=
  if c.toNat < 0x10000 then
    unitEscape c.toNat
  else
    let n := c.toNat - 0x10000
    unitEscape (0xd800 + n / 0x400) ++ unitEscape (0xdc00 + n % 0x400)

/-- How a character is written between quotes if it is written raw only where `raw` allows it. -/
def quotedChar (raw : Char → Bool) (c : Char) : List Char :=
  if c = '"' then ['\\', '"']
  else if c = '\\' then ['\\', '\\']
  else if c = '\n' then ['\\', 'n']
  else if c = '\r' then ['\\', 'r']
  else if c = '\t' then ['\\', 't']
  else if c.toNat = 8 then ['\\', 'b']
  else if c.toNat = 12 then ['\\', 'f']
  else if raw c then [c]
  else charEscape c

def quoted (raw : Char → Bool) (s : String) : String :=
  String.ofList ('"' :: (s.toList.flatMap (quotedChar raw) ++ ['"']))

/-- A string literal with every character but control characters written raw. -/
def literal (s : String) : String :=
  quoted (fun c => 0x20 ≤ c.toNat) s

/-- A string literal with printable ASCII characters written raw. -/
def asciiLiteral (s : String) : String :=
  quoted (fun c => 0x20 ≤ c.toNat && c.toNat < 0x7f) s

def newline (level : Nat) : String :=
  String.ofList ('\n' :: List.replicate (2 * level) ' ')

mutual

/-- An indented document in ASCII, whose first line continues a line at the given level. -/
def pretty (level : Nat) : Json → String
  | null => "null"
  | bool value => if value then "true" else "false"
  | num value => toString value
  | str value => asciiLiteral value
  | arr [] => "[]"
  | arr (item :: items) =>
    "[" ++ newline (level + 1) ++ pretty (level + 1) item ++ prettyItems (level + 1) items ++
      newline level ++ "]"
  | obj [] => "\x7b\x7d"
  | obj ((key, value) :: fields) =>
    "\x7b" ++ newline (level + 1) ++ asciiLiteral key ++ ": " ++ pretty (level + 1) value ++
      prettyFields (level + 1) fields ++ newline level ++ "\x7d"

def prettyItems (level : Nat) : List Json → String
  | [] => ""
  | item :: items => "," ++ newline level ++ pretty level item ++ prettyItems level items

def prettyFields (level : Nat) : List (String × Json) → String
  | [] => ""
  | (key, value) :: fields =>
    "," ++ newline level ++ asciiLiteral key ++ ": " ++ pretty level value ++
      prettyFields level fields

end

def document (json : Json) : String :=
  json.pretty 0

def ofNat (n : Nat) : Json :=
  .num n

def ofOption (f : α → Json) : Option α → Json
  | some value => f value
  | none => .null

def ofList (f : α → Json) (items : List α) : Json :=
  .arr (items.map f)

def text? (s : Option String) : Json :=
  ofOption .str s

def texts (items : List String) : Json :=
  ofList .str items

/-- A truth value is a number too. -/
def number? : Json → Option Int
  | num n => some n
  | bool b => some (if b then 1 else 0)
  | _ => none

mutual

def isSame : Json → Json → Bool
  | null, null => true
  | str a, str b => a == b
  | arr a, arr b => areSame a b
  | a, b => a.number?.isSome && a.number? == b.number?

def areSame : List Json → List Json → Bool
  | [], [] => true
  | a :: as, b :: bs => isSame a b && areSame as bs
  | _, _ => false

end

/-- The order of numbers, of texts, and of sets by inclusion; other values have none. -/
def le : Json → Json → Bool
  | str a, str b => a ≤ b
  | arr a, arr b => a.all fun item => b.any item.isSame
  | a, b =>
    match a.number?, b.number? with
    | some m, some n => m ≤ n
    | _, _ => true

/-- The elements of a set in order. Of elements that are the same the first is kept. -/
def ofSet (items : List Json) : Json :=
  .arr ((items.foldl add []).mergeSort le)
where
  add (kept : List Json) (item : Json) : List Json :=
    if kept.any item.isSame then kept else kept ++ [item]

end Json
end ComponentCompiler
