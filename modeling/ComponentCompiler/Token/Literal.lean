import ComponentCompiler.Token.Basic

/-!
This module contains the constructs that are read without looking inside: strings, comments, regular
expressions, numbers, names and operators. Each function gets the characters from some place on and
returns those that follow the construct.
-/

namespace ComponentCompiler
namespace Token

/-- What follows a string after its opening quote. A string ends before its line does unless the
line feed is escaped. -/
def stringRest? (quote : Char) : List Char → Option (List Char)
  | [] => none
  | c :: cs =>
    if c = '\\' then
      match cs with
      | [] => none
      | _ :: cs => stringRest? quote cs
    else if c = quote then
      some cs
    else if c = '\n' then
      none
    else
      stringRest? quote cs

/-- What follows an attribute's text after its opening quote; there are no escapes. -/
def attributeStringRest? (quote : Char) : List Char → Option (List Char)
  | [] => none
  | c :: cs => if c = quote then some cs else attributeStringRest? quote cs

def blockCommentRest? : List Char → Option (List Char)
  | '*' :: '/' :: cs => some cs
  | _ :: cs => blockCommentRest? cs
  | [] => none

/-- The line feed that ends a line comment, with what follows. -/
def lineCommentRest (cs : List Char) : List Char :=
  cs.dropWhile (· ≠ '\n')

/-- What follows a regular expression and its flags after its opening slash. A slash in a character
class does not end it. -/
def regexRest? (inClass : Bool) : List Char → Option (List Char)
  | [] => none
  | c :: cs =>
    if c = '\\' then
      match cs with
      | [] => none
      | _ :: cs => regexRest? inClass cs
    else if c = '\n' then
      none
    else if inClass then
      regexRest? (c ≠ ']') cs
    else if c = '[' then
      regexRest? true cs
    else if c = '/' then
      some (cs.dropWhile fun c => 'a' ≤ c && c ≤ 'z')
    else
      regexRest? false cs

def isNameStart (c : Char) : Bool :=
  Text.isAsciiLetter c || c == '_' || c == '$'

def isNamePart (c : Char) : Bool :=
  Text.isWord c || c == '$'

def nameRest (cs : List Char) : List Char :=
  cs.dropWhile isNamePart

def dropFlag (flag : Char) : List Char → List Char
  | [] => []
  | c :: cs => if c = flag then cs else c :: cs

def isDigitPart (c : Char) : Bool :=
  Text.isDigit c || c == '_'

def isHexPart (c : Char) : Bool :=
  Text.isAsciiDigit c || ('a' ≤ c && c ≤ 'f') || ('A' ≤ c && c ≤ 'F') || c == '_'

/-- What follows an exponent, or all of the text if it starts with none. -/
def exponentRest (cs : List Char) : List Char :=
  match cs with
  | [] => cs
  | e :: digits =>
    if e = 'e' || e = 'E' then
      let digits :=
        match digits with
        | [] => digits
        | sign :: more => if sign = '+' || sign = '-' then more else digits
      match digits with
      | [] => cs
      | d :: more => if Text.isDigit d then more.dropWhile Text.isDigit else cs
    else
      cs

def decimalRest (cs : List Char) : List Char :=
  dropFlag 'n' (exponentRest ((dropFlag '.' (cs.dropWhile isDigitPart)).dropWhile isDigitPart))

/-- What follows a number whose first characters are a digit, or a point and a digit. -/
def numberRest (cs : List Char) : List Char :=
  match cs with
  | '0' :: base :: d :: more =>
    if ['x', 'X', 'b', 'B', 'o', 'O'].contains base && isHexPart d then
      dropFlag 'n' (more.dropWhile isHexPart)
    else
      decimalRest cs
  | _ => decimalRest cs

/-- Operators of several characters, longer ones first. -/
def operators : List String :=
  [">>>=", "...", "===", "!==", "**=", "<<=", ">>=", ">>>", "&&=", "||=", "??=", "=>", "==", "!=",
    "<=", ">=", "&&", "||", "??", "?.", "++", "--", "+=", "-=", "*=", "/=", "%=", "&=", "|=", "^=",
    "**", "<<", ">>"]

/-- What follows an operator: the longest that the text starts with, else one character. -/
def operatorRest (cs : List Char) : List Char :=
  match operators.find? fun op => op.toList.isPrefixOf cs with
  | some op => cs.drop op.length
  | none => cs.drop 1

def isTagPart (c : Char) : Bool :=
  Text.isWord c || c == '$' || c == '.' || c == ':' || c == '-'

def isAttributePart (c : Char) : Bool :=
  Text.isWord c || c == '$' || c == ':' || c == '-'

def tagName? : List Char → Option (List Char × List Char)
  | [] => none
  | c :: cs => if Text.isAsciiLetter c then some
    (c :: cs.takeWhile isTagPart, cs.dropWhile isTagPart) else none

def attributeName? : List Char → Option (List Char × List Char)
  | [] => none
  | c :: cs =>
    if isNameStart c then some (c :: cs.takeWhile isAttributePart, cs.dropWhile isAttributePart)
    else none

end Token
end ComponentCompiler
