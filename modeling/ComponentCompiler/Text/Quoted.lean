import ComponentCompiler.Json
import ComponentCompiler.Text.Basic
import ComponentCompiler.Text.Printable

/-!
This module contains how names are shown in messages: in single quotes, or in double quotes if that
saves an escape, with every character that has no visible form escaped.
-/

namespace ComponentCompiler
namespace Text

def hexByte (n : Nat) : List Char :=
  [Json.hexDigit (n / 16 % 16), Json.hexDigit (n % 16)]

/-- The escape of a character by its code, in as few digits as its width allows. -/
def codeEscape (c : Char) : List Char :=
  let n := c.toNat
  if n < 0x100 then '\\' :: 'x' :: hexByte n
  else if n < 0x10000 then '\\' :: 'u' :: (hexByte (n / 0x100) ++ hexByte n)
  else
    '\\' :: 'U' ::
      (hexByte (n / 0x1000000) ++ hexByte (n / 0x10000) ++ hexByte (n / 0x100) ++ hexByte n)

def shownChar (quote c : Char) : List Char :=
  if c = quote || c = '\\' then ['\\', c]
  else if c = '\n' then ['\\', 'n']
  else if c = '\r' then ['\\', 'r']
  else if c = '\t' then ['\\', 't']
  else if isPrintable c then [c]
  else codeEscape c

def quoted (s : String) : String :=
  let quote := if contains s '\x27' && !contains s '"' then '"' else '\x27'
  String.ofList (quote :: (s.toList.flatMap (shownChar quote) ++ [quote]))

def quotedList (items : List String) : String :=
  "[" ++ String.intercalate ", " (items.map quoted) ++ "]"

end Text
end ComponentCompiler
