import ComponentCompiler.Path
import ComponentCompiler.Text.Utf8
import ComponentCompiler.Uri.Authority

/-!
This module contains the paths that URIs name.
-/

namespace ComponentCompiler
namespace Uri

def isSchemeChar (c : Char) : Bool :=
  Text.isAsciiLetter c || Text.isAsciiDigit c || c == '+' || c == '-' || c == '.'

/-- The scheme in small letters, or nothing, and what follows it. -/
def splitScheme (uri : List Char) : String × List Char :=
  let name := uri.takeWhile (· ≠ ':')
  match name, uri.drop name.length with
  | first :: _, _ :: rest =>
    if Text.isAsciiLetter first && name.all isSchemeChar then
      (String.ofList (name.map Char.toLower), rest)
    else
      ("", uri)
  | _, _ => ("", uri)

def isDelimiter (c : Char) : Bool :=
  c == '/' || c == '?' || c == '#'

/-- What names the host, if anything does, and what follows it. -/
def splitAuthority : List Char → List Char × List Char
  | '/' :: '/' :: rest => (rest.takeWhile (!isDelimiter ·), rest.dropWhile (!isDelimiter ·))
  | uri => ([], uri)

/-- The schemes whose last part of the path may have parameters after a semicolon. -/
def schemesWithParameters : List String :=
  ["", "ftp", "hdl", "prospero", "http", "imap", "https", "shttp", "rtsp", "rtspu", "sip", "sips",
    "mms", "sftp", "tel"]

def dropParameters (path : List Char) : List Char :=
  let last := (path.reverse.takeWhile (· ≠ '/')).reverse
  path.take (path.length - last.length) ++ last.takeWhile (· ≠ ';')

/-- The bytes of a text in ASCII with its percent escapes resolved. -/
def bytes : List Char → List Nat
  | '%' :: a :: b :: cs =>
    match hexValue? a, hexValue? b with
    | some high, some low => (high * 16 + low) :: bytes cs
    | _, _ => '%'.toNat :: bytes (a :: b :: cs)
  | c :: cs => c.toNat :: bytes cs
  | [] => []

/-- The text with its percent escapes resolved. A character can be escaped as a whole only. -/
def unescape (text : List Char) : List Char :=
  flush (go text)
where
  flush : List Char × List Char → List Char
    | (run, rest) => Text.Utf8.decode (bytes run) ++ rest
  /-- The ASCII characters at the start, and the rest with its escapes resolved. -/
  go : List Char → List Char × List Char
    | [] => ([], [])
    | c :: cs =>
      let (run, rest) := go cs
      if c.toNat < 0x80 then (c :: run, rest) else ([], c :: flush (run, rest))

def toPath (uri : String) : Except AuthorityError String := do
  let cs := (uri.toList.dropWhile (·.toNat ≤ 0x20)).filter fun c => c ≠ '\t' && c ≠ '\r' && c ≠ '\n'
  let (scheme, rest) := splitScheme cs
  let (authority, rest) := splitAuthority rest
  checkAuthority authority
  let path := (rest.takeWhile (· ≠ '#')).takeWhile (· ≠ '?')
  let path := if schemesWithParameters.contains scheme then dropParameters path else path
  return Path.absolute "/" (String.ofList (unescape path))

end Uri
end ComponentCompiler
