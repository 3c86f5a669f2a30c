import ComponentCompiler.Text.Letter
import ComponentCompiler.Text.Quoted

/-!
This module contains the part of a URI that names the host, and what it must not look like. The path
of a URI does not depend on it, but a URI whose host is malformed has no path.
-/

namespace ComponentCompiler
namespace Uri

inductive AuthorityError where
  | misplacedBracket
  | notAddress (host : String)
  | bracketedIPv4
  | malformedFuture
  | hiddenDelimiter (authority : String)
  deriving DecidableEq, Repr

def AuthorityError.message : AuthorityError → String
  | misplacedBracket => "Invalid IPv6 URL"
  | notAddress host => s!"{Text.quoted host} does not appear to be an IPv4 or IPv6 address"
  | bracketedIPv4 => "An IPv4 address cannot be in brackets"
  | malformedFuture => "IPvFuture address is invalid"
  | hiddenDelimiter authority =>
    s!"netloc '{authority}' contains invalid characters under NFKC normalization"

def hexValue? (c : Char) : Option Nat :=
  if '0' ≤ c && c ≤ '9' then some (c.toNat - '0'.toNat)
  else if 'a' ≤ c && c ≤ 'f' then some (c.toNat - 'a'.toNat + 10)
  else if 'A' ≤ c && c ≤ 'F' then some (c.toNat - 'A'.toNat + 10)
  else none

def isHexDigit (c : Char) : Bool :=
  (hexValue? c).isSome

/-! ### Addresses -/

/-- A number up to 255 without leading zeros. -/
def isOctet (cs : List Char) : Bool :=
  !cs.isEmpty && cs.length ≤ 3 && cs.all Text.isAsciiDigit &&
    (cs.length = 1 || cs.head? ≠ some '0') &&
    cs.foldl (fun n c => 10 * n + (c.toNat - '0'.toNat)) 0 ≤ 255

def isIPv4 (cs : List Char) : Bool :=
  let parts := Text.splitOnP (· == '.') cs
  parts.length = 4 && parts.all isOctet

def isHextet (cs : List Char) : Bool :=
  !cs.isEmpty && cs.length ≤ 4 && cs.all isHexDigit

/-- The parts between colons; an IPv4 address at the end stands for two of them. -/
def colonParts (cs : List Char) : List (List Char) :=
  let parts := Text.splitOnP (· == ':') cs
  match parts.getLast? with
  | some last => if isIPv4 last then parts.dropLast ++ [['0'], ['0']] else parts
  | none => parts

/-- Eight parts, or fewer around one `::` that stands for those that are missing. -/
def isHextets (parts : List (List Char)) : Bool :=
  let inner := parts.tail.dropLast
  match inner.count [] with
  | 0 => parts.length = 8 && parts.all isHextet
  | 1 =>
    let gap := inner.findIdx List.isEmpty + 1
    let given := half (parts.take gap) ++ half (parts.drop (gap + 1))
    given.length ≤ 7 && given.all isHextet
  | _ => false
where
  half (parts : List (List Char)) : List (List Char) :=
    if parts = [[]] then [] else parts

/-- An address may be followed by a percent sign and a zone. -/
def isIPv6 (cs : List Char) : Bool :=
  let address := isHextets (colonParts (cs.takeWhile (· ≠ '%')))
  match cs.dropWhile (· ≠ '%') with
  | [] => address
  | _ :: zone => address && !zone.isEmpty && !zone.contains '%'

/-- A version in hexadecimal digits, a point, and anything. -/
def isFuture (cs : List Char) : Bool :=
  !(cs.takeWhile isHexDigit).isEmpty &&
    match cs.dropWhile isHexDigit with
    | '.' :: _ :: _ => true
    | _ => false

/-! ### Checks -/

def checkBracketed (host : List Char) : Except AuthorityError Unit :=
  match host with
  | 'v' :: rest => if isFuture rest then .ok () else .error .malformedFuture
  | _ =>
    if isIPv4 host then .error .bracketedIPv4
    else if isIPv6 host then .ok ()
    else .error (.notAddress (String.ofList host))

/-- Brackets enclose the host, with nothing before them and nothing but a port after them. -/
def checkBrackets (authority : List Char) : Except AuthorityError Unit :=
  let place := (authority.reverse.takeWhile (· ≠ '@')).reverse
  match place.dropWhile (· ≠ '[') with
  | [] => checkBracketed (place.takeWhile (· ≠ ':'))
  | _ :: bracketed =>
    if place.head? ≠ some '[' then
      .error .misplacedBracket
    else
      match (bracketed.dropWhile (· ≠ ']')).drop 1 with
      | [] | ':' :: _ => checkBracketed (bracketed.takeWhile (· ≠ ']'))
      | _ => .error .misplacedBracket

/-- The characters that are compatible with a text in which one of `/?#@:` occurs. -/
def hidesDelimiter (c : Char) : Bool :=
  [0x2047, 0x2048, 0x2049, 0x2100, 0x2101, 0x2105, 0x2106, 0x2a74, 0xfe13, 0xfe16, 0xfe55, 0xfe56,
    0xfe5f, 0xfe6b, 0xff03, 0xff0f, 0xff1a, 0xff1f, 0xff20].contains c.toNat

def checkAuthority (authority : List Char) : Except AuthorityError Unit := do
  match authority.contains '[', authority.contains ']' with
  | true, true => checkBrackets authority
  | false, false => pure ()
  | _, _ => throw .misplacedBracket
  if authority.any hidesDelimiter then
    throw (.hiddenDelimiter (String.ofList authority))

end Uri
end ComponentCompiler
