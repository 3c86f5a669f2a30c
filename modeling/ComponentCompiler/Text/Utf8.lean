/-!
This module contains the decoding of bytes as UTF-8. Bytes that do not belong to a character become
replacement characters, one for each longest start of a character.
-/

namespace ComponentCompiler
namespace Text
namespace Utf8

def replacement : Char := Char.ofNat 0xfffd

/-- A character that has begun: its value so far, the number of bytes that are missing, and the
range in which the next of them has to be. -/
structure Pending where
  value : Nat
  missing : Nat
  low : Nat := 0x80
  high : Nat := 0xbf
  deriving DecidableEq, Repr

def start (b : Nat) : Except Char Pending :=
  if b < 0x80 then .error (Char.ofNat b)
  else if b < 0xc2 then .error replacement
  else if b < 0xe0 then .ok { value := b - 0xc0, missing := 1 }
  else if b = 0xe0 then .ok { value := 0, missing := 2, low := 0xa0 }
  else if b = 0xed then .ok { value := 0xd, missing := 2, high := 0x9f }
  else if b < 0xf0 then .ok { value := b - 0xe0, missing := 2 }
  else if b = 0xf0 then .ok { value := 0, missing := 3, low := 0x90 }
  else if b < 0xf4 then .ok { value := b - 0xf0, missing := 3 }
  else if b = 0xf4 then .ok { value := 4, missing := 3, high := 0x8f }
  else .error replacement

/-- What the next byte makes of a character that has begun. -/
def Pending.next (p : Pending) (b : Nat) : Except Char Pending :=
  let value := p.value * 64 + (b - 0x80)
  if p.missing = 1 then .error (Char.ofNat value) else .ok { value, missing := p.missing - 1 }

def decodeFrom : Option Pending → List Nat → List Char
  | none, [] => []
  | some _, [] => [replacement]
  | none, b :: bs => emit (start b) bs
  | some p, b :: bs =>
    if p.low ≤ b && b ≤ p.high then emit (p.next b) bs else replacement :: emit (start b) bs
where
  emit (result : Except Char Pending) (bs : List Nat) : List Char :=
    match result with
    | .error c => c :: decodeFrom none bs
    | .ok p => decodeFrom (some p) bs

def decode (bytes : List Nat) : List Char :=
  decodeFrom none bytes

end Utf8
end Text
end ComponentCompiler
